import Mathlib.Logic.Basic

/- Cyclic redundancy checks in a reflected register, over a register of any width. The check is
   defined bit by bit (`crcBits`); a register takes `n` bits of a message at once when these are
   added to its low end and it is clocked `n` times (`crcBits_chunk`), and since clocking is linear
   (`crcClocks_xor`) the result is the register moved down by `n` and a word that depends on its
   low `n` bits only, which a table can hold (`crcBits_table`). -/
namespace Lichee.Base

variable {w : Nat}

/-- The register behind one more bit of the message. -/
def crcBit (poly reg : BitVec w) (b : Bool) : BitVec w :=
  if reg.getLsbD 0 ^^ b then reg >>> 1 ^^^ poly else reg >>> 1

/-- The register behind a message. -/
def crcBits (poly reg : BitVec w) (message : List Bool) : BitVec w :=
  message.foldl (crcBit poly) reg

/-- The bits of a byte, in the order they are sent: the lowest first. -/
def byteBits (d : UInt8) : List Bool := (List.range 8).map d.toBitVec.getLsbD

/-- The check of a list of bytes. -/
def crcBytes (poly reg : BitVec w) (bytes : List UInt8) : BitVec w :=
  crcBits poly reg (bytes.flatMap byteBits)

/-- The register clocked without a bit of the message. -/
def crcClock (poly reg : BitVec w) : BitVec w :=
  if reg.getLsbD 0 then reg >>> 1 ^^^ poly else reg >>> 1

def crcClocks (poly : BitVec w) : Nat → BitVec w → BitVec w
  | 0, reg => reg
  | n + 1, reg => crcClocks poly n (crcClock poly reg)

section Linear
variable (poly : BitVec w)

theorem crcClock_xor (a b : BitVec w) :
    crcClock poly (a ^^^ b) = crcClock poly a ^^^ crcClock poly b := by
  have hcancel : a >>> 1 ^^^ poly ^^^ (b >>> 1 ^^^ poly) = a >>> 1 ^^^ b >>> 1 := by
    rw [BitVec.xor_assoc, BitVec.xor_comm (b >>> 1), ← BitVec.xor_assoc poly, BitVec.xor_self,
      BitVec.zero_xor]
  have hright : a >>> 1 ^^^ (b >>> 1 ^^^ poly) = a >>> 1 ^^^ b >>> 1 ^^^ poly :=
    (BitVec.xor_assoc _ _ _).symm
  have hleft : a >>> 1 ^^^ poly ^^^ b >>> 1 = a >>> 1 ^^^ b >>> 1 ^^^ poly := by
    rw [BitVec.xor_assoc, BitVec.xor_comm poly, BitVec.xor_assoc]
  rw [crcClock, crcClock, crcClock, BitVec.getLsbD_xor, BitVec.ushiftRight_xor_distrib]
  cases a.getLsbD 0 <;> cases b.getLsbD 0 <;> simp [hcancel, hright, hleft]

theorem crcClocks_xor (n : Nat) (a b : BitVec w) :
    crcClocks poly n (a ^^^ b) = crcClocks poly n a ^^^ crcClocks poly n b := by
  induction n generalizing a b with
  | zero => rfl
  | succ n ih => rw [crcClocks, crcClock_xor, ih, crcClocks, crcClocks]

/-- A register whose low bits are clear is only moved down. -/
theorem crcClocks_clear {n : Nat} {reg : BitVec w} (h : ∀ i < n, reg.getLsbD i = false) :
    crcClocks poly n reg = reg >>> n := by
  induction n generalizing reg with
  | zero => exact (BitVec.ushiftRight_zero reg).symm
  | succ n ih =>
    have hzero : crcClock poly reg = reg >>> 1 := by
      rw [crcClock, h 0 (Nat.zero_lt_succ n)]
      rfl
    have hnext : ∀ i < n, (reg >>> 1).getLsbD i = false := by
      intro i hi
      rw [BitVec.getLsbD_ushiftRight]
      exact h (1 + i) (by omega)
    rw [crcClocks, hzero, ih hnext, ← BitVec.shiftRight_add, Nat.add_comm]

/-- A register with nothing from the bit `n` on is moved out by `n`. -/
theorem ushiftRight_of_low {n : Nat} {d : BitVec w} (h : ∀ i, n ≤ i → d.getLsbD i = false) :
    d >>> n = 0#w := by
  apply BitVec.eq_of_getLsbD_eq
  intro i hi
  rw [BitVec.getLsbD_ushiftRight, h (n + i) (Nat.le_add_right n i), BitVec.getLsbD_zero]

/-- `n` bits of a message are taken at once by a register they are added to. -/
theorem crcBits_chunk {n : Nat} {reg d : BitVec w} (hd : ∀ i, n ≤ i → d.getLsbD i = false) :
    crcBits poly reg ((List.range n).map d.getLsbD) = crcClocks poly n (reg ^^^ d) := by
  induction n generalizing reg d with
  | zero =>
    have hzero : d = 0#w := BitVec.eq_of_getLsbD_eq fun i _ => by
      rw [hd i (Nat.zero_le i), BitVec.getLsbD_zero]
    rw [hzero, BitVec.xor_zero]
    rfl
  | succ n ih =>
    have htail : ∀ i, n ≤ i → (d >>> 1).getLsbD i = false := by
      intro i hi
      rw [BitVec.getLsbD_ushiftRight]
      exact hd (1 + i) (by omega)
    have hbits : (List.range (n + 1)).map d.getLsbD =
        d.getLsbD 0 :: (List.range n).map (d >>> 1).getLsbD := by
      rw [List.range_succ_eq_map, List.map_cons, List.map_map]
      congr 1
      apply List.map_congr_left
      intro i _
      rw [Function.comp_apply, BitVec.getLsbD_ushiftRight, Nat.add_comm]
    have hclock : crcBit poly reg (d.getLsbD 0) ^^^ d >>> 1 = crcClock poly (reg ^^^ d) := by
      rw [crcBit, crcClock, BitVec.getLsbD_xor, BitVec.ushiftRight_xor_distrib]
      split
      · rw [BitVec.xor_assoc, BitVec.xor_comm poly, BitVec.xor_assoc]
      · rfl
    rw [hbits, crcClocks, ← hclock, ← ih htail]
    rfl

/-- The step of a table: `lo` is what the register and the bits have at the low end, and the table
has the register `n` clocks behind `lo`. -/
theorem crcBits_table {n : Nat} {reg d lo : BitVec w}
    (hlo : ∀ i < n, lo.getLsbD i = (reg ^^^ d).getLsbD i)
    (hhi : ∀ i, n ≤ i → lo.getLsbD i = false) :
    crcBits poly reg ((List.range n).map d.getLsbD) = reg >>> n ^^^ crcClocks poly n lo := by
  have hlow : ∀ i < n, ((d.setWidth n).setWidth w).getLsbD i = d.getLsbD i := by
    intro i hi
    by_cases hw : i < w
    · simp [hi, hw]
    · simp [hw, BitVec.getLsbD_of_ge d i (Nat.not_lt.mp hw)]
  have hhigh : ∀ i, n ≤ i → ((d.setWidth n).setWidth w).getLsbD i = false := by
    intro i hi
    simp [Nat.not_lt.mpr hi]
  have hbits : (List.range n).map d.getLsbD =
      (List.range n).map ((d.setWidth n).setWidth w).getLsbD := by
    apply List.map_congr_left
    intro i hi
    exact (hlow i (List.mem_range.mp hi)).symm
  -- only the low `n` bits of `d` are shifted in, so `d` may be cut to them
  rw [hbits]
  generalize (d.setWidth n).setWidth w = d' at hlow hhigh
  have hclear : ∀ i < n, (reg ^^^ d' ^^^ lo).getLsbD i = false := by
    intro i hi
    rw [BitVec.getLsbD_xor, hlo i hi, BitVec.getLsbD_xor, BitVec.getLsbD_xor, hlow i hi,
      Bool.xor_self]
  have hsplit : reg ^^^ d' = reg ^^^ d' ^^^ lo ^^^ lo := by
    rw [BitVec.xor_assoc _ lo, BitVec.xor_self, BitVec.xor_zero]
  calc crcBits poly reg ((List.range n).map d'.getLsbD)
      = crcClocks poly n (reg ^^^ d') := crcBits_chunk poly hhigh
    _ = crcClocks poly n (reg ^^^ d' ^^^ lo) ^^^ crcClocks poly n lo := by
        rw [← crcClocks_xor, ← hsplit]
    _ = (reg ^^^ d' ^^^ lo) >>> n ^^^ crcClocks poly n lo := by rw [crcClocks_clear poly hclear]
    _ = reg >>> n ^^^ crcClocks poly n lo := by
        rw [BitVec.ushiftRight_xor_distrib, BitVec.ushiftRight_xor_distrib,
          ushiftRight_of_low hhigh, ushiftRight_of_low hhi, BitVec.xor_zero, BitVec.xor_zero]

end Linear

theorem crcBits_append (poly reg : BitVec w) (a b : List Bool) :
    crcBits poly reg (a ++ b) = crcBits poly (crcBits poly reg a) b := by
  exact List.foldl_append

/-- A message is checked byte by byte. -/
theorem crcBytes_cons (poly reg : BitVec w) (d : UInt8) (bytes : List UInt8) :
    crcBytes poly reg (d :: bytes) = crcBytes poly (crcBits poly reg (byteBits d)) bytes := by
  rw [crcBytes, List.flatMap_cons, crcBits_append]
  rfl

end Lichee.Base

import Mathlib.Tactic.IntervalCases

/- Device numbers as the C library packs them (`makedev`, `major` and `minor`): the low twelve
   bits of the major and the low eight of the minor stand where they stood when a device number
   had sixteen and thirty-two bits, the others around them. Every pair of 32-bit numbers has a
   number of its own (`devMajor_makedev`, `devMinor_makedev`). -/
namespace Lichee.Base

def makedev (major minor : UInt32) : UInt64 :=
  (major &&& 0x00000fff).toUInt64 <<< 8 ||| (major &&& 0xfffff000).toUInt64 <<< 32 |||
    (minor &&& 0x000000ff).toUInt64 ||| (minor &&& 0xffffff00).toUInt64 <<< 12

/-- `major` -/
def devMajor (dev : UInt64) : UInt32 :=
  ((dev &&& 0x00000000000fff00) >>> 8).toUInt32 ||| ((dev &&& 0xfffff00000000000) >>> 32).toUInt32

/-- `minor` -/
def devMinor (dev : UInt64) : UInt32 :=
  (dev &&& 0x00000000000000ff).toUInt32 ||| ((dev &&& 0x00000ffffff00000) >>> 12).toUInt32

/-- The fields do not overlap: every bit is read back from where it was put. -/
theorem devMajor_makedev (major minor : UInt32) : devMajor (makedev major minor) = major := by
  apply UInt32.eq_of_toBitVec_eq
  apply BitVec.eq_of_getLsbD_eq
  intro i hi
  simp only [devMajor, makedev]
  simp [UInt32.toBitVec_or]
  interval_cases i <;> simp

theorem devMinor_makedev (major minor : UInt32) : devMinor (makedev major minor) = minor := by
  apply UInt32.eq_of_toBitVec_eq
  apply BitVec.eq_of_getLsbD_eq
  intro i hi
  simp only [devMinor, makedev]
  simp [UInt32.toBitVec_or]
  interval_cases i <;> simp

end Lichee.Base

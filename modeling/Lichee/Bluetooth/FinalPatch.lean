import Lichee.Bluetooth.Handshake

/- Where the patch of an attach comes from. `rtk_config` calls `rtk_get_final_patch` once, behind
   one of its two questions, and from there on the program carries what it made: a run that goes
   on to change the speed, to download or to return has been in a state whose versions the patch
   is for (`Attach.Reachable.final`). -/
namespace Lichee.Bluetooth
open Base

namespace Attach
variable {freed : Hw → List UInt8 → UInt8} {b : Board} {s s' : Attach}

/-- The program calls `rtk_get_final_patch` behind the question it is at, in the branch of
`proto`. -/
def Chooses (s : Attach) (proto : Proto) : Prop :=
  s.pc = .lmpVersion ∧ s.hw.lmpVersion = ROM_LMP_8723a ∧ proto = .threeWire ∨
    s.pc = .eversion ∧ proto = .other

/-- `total_buf` is what `rtk_get_final_patch` makes of the image for the versions that `rtk_hw_cfg`
holds in this state. -/
def Makes (b : Board) (s : Attach) (total : Option (List UInt8)) : Prop :=
  ∃ proto, s.Chooses proto ∧
    rtkGetFinalPatch proto b.fwBuf b.configBuf s.hw.lmpVersion s.hw.eversion = some (.ok total)

end Attach

/-- Behind `rtk_get_final_patch`, unless the attach has failed. -/
def Pc.Chosen : Pc → Prop
  | .changeSpeed | .patch _ | .returned true => True
  | _ => False

namespace Attach
variable {freed : Hw → List UInt8 → UInt8} {b : Board} {s s' : Attach}

/-- From a loop to the next, or out of one: the patch stays, or is made. -/
def Carries (b : Board) (s s' : Attach) : Prop :=
  s.pc.Chosen ∧ s'.totalBuf = s.totalBuf ∨ s.Makes b s'.totalBuf

end Attach

end Lichee.Bluetooth

import Lichee.Base.Loop
import Lichee.Base.Memory

/- The patch of a firmware image (`rtk_get_final_patch` of hciattach_rtk.c). An image starts with a
   signature, a version and a count, behind which three tables give each chip's patch, and ends
   with a chain of records, which is read from its end to find the project. Every length and
   offset is the image's own, and nothing compares one with the length of the image:
   `patch_inside_iff` says what an image must be like for all of them to stay inside. -/
namespace Lichee.Bluetooth
open Base

abbrev RTK_EPATCH_SIGNATURE : List UInt8 := [0x52, 0x65, 0x61, 0x6C, 0x74, 0x65, 0x63, 0x68]

/-- `Extension_Section_SIGNATURE` -/
abbrev extensionSectionSignature : List UInt8 := [0x51, 0x04, 0xFD, 0x77]

abbrev ROM_LMP_NONE : UInt16 := 0x0000
abbrev ROM_LMP_8723a : UInt16 := 0x1200
abbrev ROM_LMP_8723b : UInt16 := 0x8723
abbrev ROM_LMP_8821a : UInt16 := 0x8821
abbrev ROM_LMP_8761a : UInt16 := 0x8761

/-- `project_id` -/
abbrev projectIds : List UInt16 :=
  [ROM_LMP_8723a, ROM_LMP_8723b, ROM_LMP_8821a, ROM_LMP_8761a, ROM_LMP_NONE]

/-! ## The project -/

/-- What a record leads to: the data found, or the record in front of it. -/
inductive Record where
  | found (data : UInt8)
  | before (p : Int)
  deriving DecidableEq, Repr

/-- One turn of the backward walk, at a record whose opcode is at `p`. -/
def readRecord (buf : List UInt8) (p : Int) : Except Fault Record := do
  let opcode ← load8 buf p
  let len ← load8 buf (p - 1)
  if opcode = 0x00 ∧ len = 1 then (load8 buf (p - 2)).map .found
  else
    (load8 buf (p - (len.toNat + 2))).map fun c =>
      if c ≠ 0xFF then .before (p - (len.toNat + 2)) else .found 0

/-- The walk leaves the loop with the data, or by an access outside. -/
def recordStep (buf : List UInt8) (p : Int) : Except (Except Fault UInt8) Int :=
  match readRecord buf p with
  | .error fault => .error (.error fault)
  | .ok (.found data) => .error (.ok data)
  | .ok (.before p) => .ok p

/-- `rtk_get_fw_project_id`. A record takes two bytes at least, so there are no more turns than
bytes. -/
def rtkGetFwProjectId (buf : List UInt8) (p : Int) : Option (Except Fault UInt8) :=
  match whileLoop (fun _ => true) (recordStep buf) (buf.length + 1) p with
  | some (.error r) => some r
  | _ => none

/-! ## The patch -/

/-- A `struct rtk_epatch_entry`. -/
structure PatchEntry where
  chipID : UInt16
  patchLength : UInt16
  startOffset : UInt32
  deriving DecidableEq, Repr

/-- The loop over the chips from `i` on, of which there are `k` more. -/
def searchEntry (buf : List UInt8) (eversion : UInt8) (numberOfPatch : Nat) :
    Nat → Nat → Except Fault (Option PatchEntry)
  | 0, _ => .ok none
  | k + 1, i => do
    let chipID ← load16 buf ↑(14 + 2 * i)
    if chipID.toNat = eversion.toNat + 1 then do
      let patchLength ← load16 buf ↑(14 + 2 * numberOfPatch + 2 * i)
      let startOffset ← load32 buf ↑(14 + 4 * numberOfPatch + 4 * i)
      .ok (some ⟨chipID, patchLength, startOffset⟩)
    else searchEntry buf eversion numberOfPatch k (i + 1)

/-- `rtk_get_patch_entry`, with memory for the entry. -/
def rtkGetPatchEntry (buf : List UInt8) (eversion : UInt8) : Except Fault (Option PatchEntry) := do
  let numberOfPatch ← load16 buf 12
  let _ ← load32 buf 8
  searchEntry buf eversion numberOfPatch.toNat numberOfPatch.toNat 0

/-- `memcpy` from the address `a` of a buffer. -/
def loadBytes (buf : List UInt8) (a n : Nat) : Except Fault (List UInt8) :=
  if a + n ≤ buf.length then .ok ((buf.drop a).take n) else .error ⟨max a buf.length⟩

/-- The patch of an entry, its last four bytes overwritten with the version, and the config file
behind it. -/
def copyPatch (fwBuf configBuf : List UInt8) (entry : PatchEntry) : Except Fault (List UInt8) := do
  let patch ← loadBytes fwBuf entry.startOffset.toNat entry.patchLength.toNat
  let fwVersion ← loadBytes fwBuf 8 4
  if entry.patchLength.toNat < 4 then .error ⟨entry.patchLength.toNat - 4⟩
  else .ok (patch.take (entry.patchLength.toNat - 4) ++ fwVersion ++ configBuf)

/-- The protocols the function tells apart. -/
inductive Proto where
  | h4
  | threeWire
  | other
  deriving DecidableEq, Repr

/-- `rtk_get_final_patch`, with memory for the buffers, once the controller has told its versions:
what is sent to it, if anything. -/
def rtkGetFinalPatch (proto : Proto) (fwBuf configBuf : List UInt8) (lmpVersion : UInt16)
    (eversion : UInt8) : Option (Except Fault (Option (List UInt8))) :=
  if proto = .h4 ∨ proto = .threeWire ∧ lmpVersion = ROM_LMP_8723a then
    -- these controllers take the image as it is, and one with a signature is not for them
    if fwBuf.take 8 = RTK_EPATCH_SIGNATURE then some (.ok none)
    else some (.ok (some (fwBuf ++ configBuf)))
  else if fwBuf.take 8 ≠ RTK_EPATCH_SIGNATURE then some (.ok none)
  else if fwBuf.drop (fwBuf.length - 4) ≠ extensionSectionSignature then some (.ok none)
  else
    (rtkGetFwProjectId fwBuf (fwBuf.length - 5)).map fun projId => do
      let projId ← projId
      match projectIds[projId.toNat]? with
      -- the number is not compared with the length of the table
      | none => .error ⟨2 * projId.toNat⟩
      | some projectId =>
        if lmpVersion ≠ projectId then .ok none
        else do
          match ← rtkGetPatchEntry fwBuf eversion with
          | none => .ok none
          | some entry => (copyPatch fwBuf configBuf entry).map some

/-- The entry describes at least four bytes of the image. -/
structure PatchEntry.InImage (entry : PatchEntry) (fwBuf : List UInt8) : Prop where
  range : entry.startOffset.toNat + entry.patchLength.toNat ≤ fwBuf.length
  version : 4 ≤ entry.patchLength.toNat

/-- The patch is found without leaving the image: the project, whose number is one of the table,
and for a controller of that project the entry of its patch, if there is one. -/
def PatchInside (fwBuf : List UInt8) (lmpVersion : UInt16) (eversion : UInt8) : Prop :=
  ∃ projId, rtkGetFwProjectId fwBuf (fwBuf.length - 5) = some (.ok projId) ∧
    projId.toNat < projectIds.length ∧
    (projectIds[projId.toNat]? = some lmpVersion →
      ∃ r, rtkGetPatchEntry fwBuf eversion = .ok r ∧ ∀ entry ∈ r, entry.InImage fwBuf)

/-! ## Images -/

section Images
variable (fwBuf : List UInt8)

/-- The image passes the checks of its two signatures. -/
structure Sealed : Prop where
  signature : fwBuf.take 8 = RTK_EPATCH_SIGNATURE
  extension : fwBuf.drop (fwBuf.length - 4) = extensionSectionSignature

/-- The length of the record whose opcode is at `p`. -/
def recordLen (p : Nat) : Nat := (byteAt fwBuf (p - 1)).toNat

/-- The record of the project. -/
def IsProject (p : Nat) : Prop := byteAt fwBuf p = 0x00 ∧ byteAt fwBuf (p - 1) = 1

instance (p : Nat) : Decidable (IsProject fwBuf p) := inferInstanceAs (Decidable (_ ∧ _))

/-- A record of the chain has its opcode at `p`: the last one in front of the signature, each
other one in front of a record that is not of the project. -/
inductive RecordAt : Nat → Prop
  | last : RecordAt (fwBuf.length - 5)
  | before {p : Nat} (h : RecordAt p) (hproject : ¬ IsProject fwBuf p)
      (hp : recordLen fwBuf p + 2 ≤ p) (hend : byteAt fwBuf (p - (recordLen fwBuf p + 2)) ≠ 0xFF) :
      RecordAt (p - (recordLen fwBuf p + 2))

/-- A record has its length in the image, and its data too: one of the project a number of the
table, and every other one something in front of it. -/
structure RecordFits (p : Nat) : Prop where
  header : 1 ≤ p
  project : IsProject fwBuf p → 2 ≤ p ∧ (byteAt fwBuf (p - 2)).toNat < projectIds.length
  data : ¬ IsProject fwBuf p → recordLen fwBuf p + 2 ≤ p

/-- The project of an image: of its record, and 0 without one. -/
def ProjectId (projId : UInt8) : Prop :=
  (∃ p, RecordAt fwBuf p ∧ IsProject fwBuf p ∧ byteAt fwBuf (p - 2) = projId) ∨
    (∀ p, RecordAt fwBuf p → ¬ IsProject fwBuf p) ∧ projId = 0

/-- The number of patches. -/
def patchCount : Nat := (half fwBuf 12).toNat

/-- Patch `i` is the chip's. -/
def IsChip (eversion : UInt8) (i : Nat) : Prop :=
  (half fwBuf (14 + 2 * i)).toNat = eversion.toNat + 1

/-- The number of patch `i` is in the image, and where it is the chip's its length and its offset
are too, and describe at least four bytes of it. -/
structure PatchFits (eversion : UInt8) (i : Nat) : Prop where
  chip : 14 + 2 * i + 2 ≤ fwBuf.length
  tables : IsChip fwBuf eversion i → 14 + 4 * patchCount fwBuf + 4 * i + 4 ≤ fwBuf.length
  range : IsChip fwBuf eversion i →
    (word fwBuf (14 + 4 * patchCount fwBuf + 4 * i)).toNat +
      (half fwBuf (14 + 2 * patchCount fwBuf + 2 * i)).toNat ≤ fwBuf.length
  version : IsChip fwBuf eversion i →
    4 ≤ (half fwBuf (14 + 2 * patchCount fwBuf + 2 * i)).toNat

/-- The count is in the image, and every patch up to the first of the chip fits. -/
structure TablesFit (eversion : UInt8) : Prop where
  count : 14 ≤ fwBuf.length
  patch : ∀ i < patchCount fwBuf, (∀ j < i, ¬ IsChip fwBuf eversion j) → PatchFits fwBuf eversion i

end Images

/-! ## The walk -/

section Walk
variable {fwBuf : List UInt8} {p : Nat}

theorem Sealed.length (h : Sealed fwBuf) : 12 ≤ fwBuf.length := by
  obtain ⟨hsig, hext⟩ := h
  by_contra hlt
  have hlen := congrArg List.length hsig
  rw [List.length_take] at hlen
  have hsplit : fwBuf = RTK_EPATCH_SIGNATURE ++ fwBuf.drop 8 := by
    rw [← hsig, List.take_append_drop]
  have hrest : (fwBuf.drop 8).length < 4 := by
    rw [List.length_drop]
    omega
  generalize fwBuf.drop 8 = t at hsplit hrest
  subst hsplit
  match t, hrest with
  | [], _ => exact absurd hext (by decide)
  | [a], _ => exact absurd (List.cons.inj hext).1 (by decide)
  | [a, b], _ => exact absurd (List.cons.inj hext).1 (by decide)
  | [a, b, c], _ => exact absurd (List.cons.inj hext).1 (by decide)

/-- A record of the chain lies in front of the signature. -/
theorem RecordAt.le (h : RecordAt fwBuf p) : p ≤ fwBuf.length - 5 := by
  induction h with
  | last => exact Nat.le_refl _
  | before _ _ _ _ ih => omega

/-- What a record leads to. -/
def recordOf (fwBuf : List UInt8) (p : Nat) : Record :=
  if IsProject fwBuf p then .found (byteAt fwBuf (p - 2))
  else if byteAt fwBuf (p - (recordLen fwBuf p + 2)) ≠ 0xFF then
    .before ↑(p - (recordLen fwBuf p + 2))
  else .found 0

/-- A record whose bytes are in the image is read. -/
theorem readRecord_inside (hlt : p < fwBuf.length) (hheader : 1 ≤ p)
    (hproject : IsProject fwBuf p → 2 ≤ p)
    (hdata : ¬ IsProject fwBuf p → recordLen fwBuf p + 2 ≤ p) :
    readRecord fwBuf p = .ok (recordOf fwBuf p) := by
  have hlen : load8 fwBuf ((p : Int) - 1) = .ok (byteAt fwBuf (p - 1)) := by
    rw [show (p : Int) - 1 = ↑(p - 1) by omega]
    exact load8_eq (by omega)
  rw [readRecord, load8_eq hlt, ok_bind, hlen, ok_bind, recordOf]
  by_cases hp : IsProject fwBuf p
  · have hp' : byteAt fwBuf p = 0x00 ∧ byteAt fwBuf (p - 1) = 1 := hp
    have := hproject hp
    rw [if_pos hp', if_pos hp, show (p : Int) - 2 = ↑(p - 2) by omega, load8_eq (by omega)]
    rfl
  · have hp' : ¬ (byteAt fwBuf p = 0x00 ∧ byteAt fwBuf (p - 1) = 1) := hp
    have hle := hdata hp
    have hback : (p : Int) - ((byteAt fwBuf (p - 1)).toNat + 2) =
        ↑(p - (recordLen fwBuf p + 2)) := by
      unfold recordLen at hle ⊢
      omega
    rw [if_neg hp', if_neg hp, hback, load8_eq (by omega)]
    rfl

/-- The bytes of a record that was read are in the image. -/
theorem inside_of_readRecord {r : Record} (h : readRecord fwBuf p = .ok r) :
    1 ≤ p ∧ p < fwBuf.length ∧ (IsProject fwBuf p → 2 ≤ p) ∧
      (¬ IsProject fwBuf p → recordLen fwBuf p + 2 ≤ p) := by
  obtain ⟨opcode, hopcode, h⟩ := bind_eq_ok.mp h
  obtain ⟨len, hlen, h⟩ := bind_eq_ok.mp h
  have hin := inside_of_load8 hopcode
  have hin' := inside_of_load8 hlen
  rw [load8_eq (by omega)] at hopcode
  rw [show (p : Int) - 1 = ↑(p - 1) by omega, load8_eq (by omega)] at hlen
  cases hopcode
  cases hlen
  refine ⟨by omega, by omega, fun hp => ?_, fun hp => ?_⟩
  · have hp' : byteAt fwBuf p = 0x00 ∧ byteAt fwBuf (p - 1) = 1 := hp
    rw [if_pos hp'] at h
    cases hdata : load8 fwBuf ((p : Int) - 2) with
    | error e =>
      rw [hdata] at h
      cases h
    | ok data =>
      have := inside_of_load8 hdata
      omega
  · have hp' : ¬ (byteAt fwBuf p = 0x00 ∧ byteAt fwBuf (p - 1) = 1) := hp
    rw [if_neg hp'] at h
    cases hdata : load8 fwBuf ((p : Int) - ((byteAt fwBuf (p - 1)).toNat + 2)) with
    | error e =>
      rw [hdata] at h
      cases h
    | ok data =>
      have := inside_of_load8 hdata
      unfold recordLen
      omega

/-- The record of the project ends the walk. -/
theorem recordStep_project (hlt : p < fwBuf.length) (hfit : RecordFits fwBuf p)
    (hproject : IsProject fwBuf p) :
    recordStep fwBuf p = .error (.ok (byteAt fwBuf (p - 2))) := by
  rw [recordStep, readRecord_inside hlt hfit.header (fun h => (hfit.project h).1) hfit.data,
    recordOf, if_pos hproject]

/-- Every other record leads on to the one in front of it, or is the last. -/
theorem recordStep_other (hlt : p < fwBuf.length) (hfit : RecordFits fwBuf p)
    (hproject : ¬ IsProject fwBuf p) :
    recordStep fwBuf p =
      if byteAt fwBuf (p - (recordLen fwBuf p + 2)) ≠ 0xFF then .ok ↑(p - (recordLen fwBuf p + 2))
      else .error (.ok 0) := by
  rw [recordStep, readRecord_inside hlt hfit.header (fun h => (hfit.project h).1) hfit.data,
    recordOf, if_neg hproject]
  by_cases hend : byteAt fwBuf (p - (recordLen fwBuf p + 2)) ≠ 0xFF
  · rw [if_pos hend, if_pos hend]
  · rw [if_neg hend, if_neg hend]

section Chain
variable (hlen : 12 ≤ fwBuf.length)
include hlen

theorem RecordAt.lt (h : RecordAt fwBuf p) : p < fwBuf.length := by
  have := h.le
  omega

/-- Where a record leads on, a record of the chain is in front of it. -/
theorem record_of_step (hp : RecordAt fwBuf p) (hfit : RecordFits fwBuf p) {u : Int}
    (hstep : recordStep fwBuf p = .ok u) : ∃ q : Nat, u = q ∧ q < p ∧ RecordAt fwBuf q := by
  by_cases hproject : IsProject fwBuf p
  · rw [recordStep_project (hp.lt hlen) hfit hproject] at hstep
    cases hstep
  · rw [recordStep_other (hp.lt hlen) hfit hproject] at hstep
    split at hstep
    · next hend =>
      cases hstep
      have hheader := hfit.header
      exact ⟨_, rfl, by omega, hp.before hproject (hfit.data hproject) hend⟩
    · cases hstep

/-- The loop comes to every record of a chain that fits. -/
theorem reach_record (hfit : ∀ p, RecordAt fwBuf p → RecordFits fwBuf p)
    (h : RecordAt fwBuf p) :
    Reach (fun _ => true) (recordStep fwBuf) ↑(fwBuf.length - 5) ↑p := by
  induction h with
  | last => exact .refl
  | before h hproject _ hend ih =>
    exact ih.tail rfl ((recordStep_other (h.lt hlen) (hfit _ h) hproject).trans (if_pos hend))

/-- And it stands at no other place. -/
theorem record_of_reach (hfit : ∀ p, RecordAt fwBuf p → RecordFits fwBuf p) {t : Int}
    (h : Reach (fun _ => true) (recordStep fwBuf) ↑(fwBuf.length - 5) t) :
    ∃ p : Nat, t = p ∧ RecordAt fwBuf p := by
  refine h.invariant (I := fun t : Int => ∃ p : Nat, t = p ∧ RecordAt fwBuf p)
    ⟨_, rfl, .last⟩ ?_
  intro t u ⟨p, ht, hp⟩ _ hstep
  subst ht
  obtain ⟨q, hq, -, hrecord⟩ := record_of_step hlen hp (hfit p hp) hstep
  exact ⟨q, hq, hrecord⟩

/-- A walk over records that fit is left at one of them. -/
theorem walk_ends (hfit : ∀ p, RecordAt fwBuf p → RecordFits fwBuf p) :
    ∃ r p, rtkGetFwProjectId fwBuf (fwBuf.length - 5) = some r ∧
      Ends (fun _ => true) (recordStep fwBuf) ↑(fwBuf.length - 5) (.error r) ∧
      RecordAt fwBuf p ∧ recordStep fwBuf p = .error r := by
  have hstart : (fwBuf.length : Int) - 5 = ↑(fwBuf.length - 5) := by omega
  have hmeasure : ∀ t u, Reach (fun _ => true) (recordStep fwBuf) ↑(fwBuf.length - 5) t →
      true = true → recordStep fwBuf t = .ok u → u.toNat < t.toNat := by
    intro t u hr _ hstep
    obtain ⟨p, rfl, hp⟩ := record_of_reach hlen hfit hr
    obtain ⟨q, rfl, hlt, -⟩ := record_of_step hlen hp (hfit p hp) hstep
    exact hlt
  obtain ⟨r, hr⟩ := whileLoop_terminates Int.toNat hmeasure (n := fwBuf.length) (by omega)
  cases r with
  | ok t =>
    have hguard := (reach_of_whileLoop hr).2
    cases hguard
  | error r =>
    obtain ⟨t, ht, -, hstep⟩ := reach_of_whileLoop_error hr
    obtain ⟨p, rfl, hp⟩ := record_of_reach hlen hfit ht
    refine ⟨r, p, ?_, ⟨_, hr⟩, hp, hstep⟩
    rw [rtkGetFwProjectId, hstart, hr]

/-- A walk over records that fit ends, with the project of the image. -/
theorem project_of_fits (hfit : ∀ p, RecordAt fwBuf p → RecordFits fwBuf p) :
    ∃ projId, rtkGetFwProjectId fwBuf (fwBuf.length - 5) = some (.ok projId) ∧
      projId.toNat < projectIds.length ∧ ∀ projId', ProjectId fwBuf projId' ↔ projId' = projId := by
  obtain ⟨r, p, hrun, hends, hp, hstep⟩ := walk_ends hlen hfit
  -- every record of the project is where the loop was left
  have hproject : ∀ q, RecordAt fwBuf q → IsProject fwBuf q → r = .ok (byteAt fwBuf (q - 2)) := by
    intro q hq hq'
    have hleft := recordStep_project (hq.lt hlen) (hfit q hq) hq'
    exact Except.error.inj
      ((ends_error rfl hleft).mp ((ends_of_reach (reach_record hlen hfit hq)).mp hends))
  rw [hrun]
  by_cases hany : ∃ q, RecordAt fwBuf q ∧ IsProject fwBuf q
  · obtain ⟨q, hq, hq'⟩ := hany
    refine ⟨byteAt fwBuf (q - 2), congrArg some (hproject q hq hq'),
      ((hfit q hq).project hq').2, fun projId' => ⟨?_, ?_⟩⟩
    · intro h
      obtain ⟨q', hat, hat', rfl⟩ | ⟨hno, -⟩ := h
      · exact Except.ok.inj ((hproject q' hat hat').symm.trans (hproject q hq hq'))
      · exact absurd hq' (hno q hq)
    · intro h
      exact .inl ⟨q, hq, hq', h.symm⟩
  · have hno : ∀ q, RecordAt fwBuf q → ¬ IsProject fwBuf q := fun q hq hq' => hany ⟨q, hq, hq'⟩
    have hzero : r = .ok 0 := by
      rw [recordStep_other (hp.lt hlen) (hfit p hp) (hno p hp)] at hstep
      split at hstep
      · cases hstep
      · exact (Except.error.inj hstep).symm
    refine ⟨0, congrArg some hzero, by decide, fun projId' => ⟨?_, ?_⟩⟩
    · intro h
      obtain ⟨q, hq, hq', -⟩ | ⟨-, h0⟩ := h
      · exact absurd hq' (hno q hq)
      · exact h0
    · intro h
      exact .inr ⟨hno, h⟩

/-- The records of a walk that ended with a number of the table fit. Induction along the chain. -/
theorem fits_of_project {projId : UInt8}
    (hrun : rtkGetFwProjectId fwBuf (fwBuf.length - 5) = some (.ok projId))
    (hprojId : projId.toNat < projectIds.length) (hp : RecordAt fwBuf p) :
    RecordFits fwBuf p ∧
      Reach (fun _ => true) (recordStep fwBuf) ↑(fwBuf.length - 5) ↑p := by
  have hends : Ends (fun _ => true) (recordStep fwBuf) ↑(fwBuf.length - 5)
      (.error (.ok projId)) := by
    refine ⟨fwBuf.length + 1, ?_⟩
    rw [rtkGetFwProjectId, show (fwBuf.length : Int) - 5 = ↑(fwBuf.length - 5) by omega] at hrun
    split at hrun
    · next hr =>
      cases hrun
      exact hr
    · cases hrun
  -- a walk that comes to a record ends as it does, so not by an access outside
  have hat : ∀ {p : Nat}, Reach (fun _ => true) (recordStep fwBuf) ↑(fwBuf.length - 5) ↑p →
      RecordFits fwBuf p := by
    intro p hr
    have hends' := (ends_of_reach hr).mp hends
    cases hread : readRecord fwBuf p with
    | error fault =>
      have hstep : recordStep fwBuf p = .error (.error fault) := by rw [recordStep, hread]
      cases (ends_error rfl hstep).mp hends'
    | ok r =>
      obtain ⟨hheader, hlt, hproject, hdata⟩ := inside_of_readRecord hread
      refine ⟨hheader, fun hp' => ⟨hproject hp', ?_⟩, hdata⟩
      have hstep : recordStep fwBuf p = .error (.ok (byteAt fwBuf (p - 2))) := by
        rw [recordStep, readRecord_inside hlt hheader hproject hdata, recordOf, if_pos hp']
      cases (ends_error rfl hstep).mp hends'
      exact hprojId
  induction hp with
  | last => exact ⟨hat .refl, .refl⟩
  | before h hproject _ hend ih =>
    obtain ⟨hfit, hr⟩ := ih
    have hr' := hr.tail rfl ((recordStep_other (h.lt hlen) hfit hproject).trans (if_pos hend))
    exact ⟨hat hr', hr'⟩

end Chain

end Walk

/-! ## The tables -/

section Tables
variable (fwBuf : List UInt8) (eversion : UInt8)

/-- A search that returns has read the number of its first patch. -/
theorem searchEntry_inside {n k i : Nat} {r : Option PatchEntry}
    (h : searchEntry fwBuf eversion n (k + 1) i = .ok r) : 14 + 2 * i + 2 ≤ fwBuf.length := by
  obtain ⟨chipID, hchip, -⟩ := bind_eq_ok.mp h
  have hin := (inside_of_load16 hchip).2
  omega

theorem searchEntry_skip {n k i : Nat} (hchip : 14 + 2 * i + 2 ≤ fwBuf.length)
    (h : ¬ IsChip fwBuf eversion i) :
    searchEntry fwBuf eversion n (k + 1) i = searchEntry fwBuf eversion n k (i + 1) := by
  rw [searchEntry, load16_eq hchip, ok_bind]
  exact if_neg h

/-- The search stops at the chip's patch, and what it finds is in the image where that fits. -/
theorem searchEntry_chip {k i : Nat} (hchip : 14 + 2 * i + 2 ≤ fwBuf.length)
    (h : IsChip fwBuf eversion i) :
    (∃ r, searchEntry fwBuf eversion (patchCount fwBuf) (k + 1) i = .ok r ∧
      ∀ entry ∈ r, entry.InImage fwBuf) ↔ PatchFits fwBuf eversion i := by
  have hfound : searchEntry fwBuf eversion (patchCount fwBuf) (k + 1) i = (do
      let patchLength ← load16 fwBuf ↑(14 + 2 * patchCount fwBuf + 2 * i)
      let startOffset ← load32 fwBuf ↑(14 + 4 * patchCount fwBuf + 4 * i)
      .ok (some ⟨half fwBuf (14 + 2 * i), patchLength, startOffset⟩)) := by
    rw [searchEntry, load16_eq hchip, ok_bind]
    exact if_pos h
  rw [hfound]
  refine ⟨?_, ?_⟩
  · intro ⟨r, hr, himage⟩
    obtain ⟨patchLength, hlength, hr⟩ := bind_eq_ok.mp hr
    obtain ⟨startOffset, hoffset, hr⟩ := bind_eq_ok.mp hr
    have hinlen := (inside_of_load16 hlength).2
    have hinoff := (inside_of_load32 hoffset).2
    rw [load16_eq (by omega)] at hlength
    rw [load32_eq (by omega)] at hoffset
    cases hlength
    cases hoffset
    cases hr
    obtain ⟨hrange, hversion⟩ := himage _ rfl
    exact ⟨hchip, fun _ => by omega, fun _ => hrange, fun _ => hversion⟩
  · intro hfit
    have htables := hfit.tables h
    rw [load16_eq (by omega), ok_bind, load32_eq (by omega), ok_bind]
    refine ⟨_, rfl, fun entry hentry => ?_⟩
    cases hentry
    exact ⟨hfit.range h, hfit.version h⟩

/-- The search from patch `i` on stays inside, and finds a patch of the image, just where each
patch up to the first of the chip fits. Induction on the patches that are left. -/
theorem searchEntry_iff (k : Nat) : ∀ i, i + k = patchCount fwBuf →
    ((∃ r, searchEntry fwBuf eversion (patchCount fwBuf) k i = .ok r ∧
        ∀ entry ∈ r, entry.InImage fwBuf) ↔
      ∀ j, i ≤ j → j < patchCount fwBuf → (∀ l, i ≤ l → l < j → ¬ IsChip fwBuf eversion l) →
        PatchFits fwBuf eversion j) := by
  induction k with
  | zero =>
    intro i hi
    refine iff_of_true ⟨none, rfl, fun entry h => by cases h⟩ ?_
    intro j hij hj
    omega
  | succ k ih =>
    intro i hi
    refine ⟨?_, ?_⟩
    · intro h j hij hj hnone
      have hchip : 14 + 2 * i + 2 ≤ fwBuf.length := by
        obtain ⟨r, hr, -⟩ := h
        exact searchEntry_inside fwBuf eversion hr
      -- the search ends at the first patch of the chip, and goes on behind every other
      by_cases hmatch : IsChip fwBuf eversion i
      · obtain rfl : i = j := by
          by_contra hne
          exact hnone i (Nat.le_refl i) (by omega) hmatch
        exact (searchEntry_chip fwBuf eversion hchip hmatch).mp h
      · rw [searchEntry_skip fwBuf eversion hchip hmatch] at h
        by_cases hij' : i = j
        · subst hij'
          exact ⟨hchip, fun h => absurd h hmatch, fun h => absurd h hmatch,
            fun h => absurd h hmatch⟩
        · exact (ih (i + 1) (by omega)).mp h j (by omega) hj fun l hl => hnone l (by omega)
    · intro hfit
      have hi' := hfit i (Nat.le_refl i) (by omega) fun l hl hl' => by omega
      by_cases hmatch : IsChip fwBuf eversion i
      · exact (searchEntry_chip fwBuf eversion hi'.chip hmatch).mpr hi'
      · rw [searchEntry_skip fwBuf eversion hi'.chip hmatch]
        refine (ih (i + 1) (by omega)).mpr fun j hij hj hnone => ?_
        refine hfit j (by omega) hj fun l hl hl' => ?_
        by_cases hil : i = l
        · exact hil ▸ hmatch
        · exact hnone l (by omega) hl'

/-- The tables are read inside the image, and give a patch of it, just where they fit. -/
theorem rtkGetPatchEntry_iff {fwBuf : List UInt8} (hlen : 12 ≤ fwBuf.length) :
    (∃ r, rtkGetPatchEntry fwBuf eversion = .ok r ∧ ∀ entry ∈ r, entry.InImage fwBuf) ↔
      TablesFit fwBuf eversion := by
  have hversion : load32 fwBuf 8 = .ok (word fwBuf 8) := load32_eq (a := 8) (by omega)
  have hsearch := searchEntry_iff fwBuf eversion (patchCount fwBuf) 0 (Nat.zero_add _)
  refine ⟨?_, ?_⟩
  · intro ⟨r, hr, himage⟩
    obtain ⟨numberOfPatch, hcount, hr⟩ := bind_eq_ok.mp hr
    have hin := (inside_of_load16 hcount).2
    have hcount' : load16 fwBuf 12 = .ok (half fwBuf 12) := load16_eq (a := 12) (by omega)
    rw [hcount'] at hcount
    cases hcount
    rw [hversion, ok_bind] at hr
    refine ⟨by omega, fun i hi hnone => ?_⟩
    exact hsearch.mp ⟨r, hr, himage⟩ i (Nat.zero_le i) hi fun l _ => hnone l
  · intro ⟨hcount, hpatch⟩
    have hcount' : load16 fwBuf 12 = .ok (half fwBuf 12) := load16_eq (a := 12) (by omega)
    rw [rtkGetPatchEntry, hcount', ok_bind, hversion, ok_bind]
    exact hsearch.mpr fun j _ hj hnone => hpatch j hj fun l => hnone l (Nat.zero_le l)

end Tables

/-! ## The patch stays inside -/

section Inside
variable {fwBuf : List UInt8}

/-- **The patch of an image that passes the checks is found inside it just where every record of
its chain fits and, for a controller of its project, every patch up to the chip's does.** -/
theorem patch_inside_iff (h : Sealed fwBuf) (lmpVersion : UInt16) (eversion : UInt8) :
    PatchInside fwBuf lmpVersion eversion ↔
      (∀ p, RecordAt fwBuf p → RecordFits fwBuf p) ∧
      ∀ projId, ProjectId fwBuf projId → projectIds[projId.toNat]? = some lmpVersion →
        TablesFit fwBuf eversion := by
  have hlen := h.length
  refine ⟨?_, ?_⟩
  · intro ⟨projId, hrun, hprojId, hentry⟩
    have hfit : ∀ p, RecordAt fwBuf p → RecordFits fwBuf p := fun p hp =>
      (fits_of_project hlen hrun hprojId hp).1
    refine ⟨hfit, fun projId' hproject hlmp => ?_⟩
    obtain ⟨projId'', hrun', -, hunique⟩ := project_of_fits hlen hfit
    rw [hrun] at hrun'
    cases hrun'
    rw [(hunique projId').mp hproject] at hlmp
    exact (rtkGetPatchEntry_iff eversion hlen).mp (hentry hlmp)
  · intro ⟨hfit, htables⟩
    obtain ⟨projId, hrun, hprojId, hunique⟩ := project_of_fits hlen hfit
    exact ⟨projId, hrun, hprojId, fun hlmp =>
      (rtkGetPatchEntry_iff eversion hlen).mpr (htables projId ((hunique projId).mpr rfl) hlmp)⟩

/-- A patch is copied of an entry in the image only. -/
theorem inImage_of_copyPatch {configBuf patch : List UInt8} {entry : PatchEntry}
    (h : copyPatch fwBuf configBuf entry = .ok patch) : entry.InImage fwBuf := by
  obtain ⟨bytes, hbytes, h⟩ := bind_eq_ok.mp h
  obtain ⟨fwVersion, -, h⟩ := bind_eq_ok.mp h
  refine ⟨?_, ?_⟩
  · by_contra hrange
    rw [loadBytes, if_neg hrange] at hbytes
    cases hbytes
  · by_contra hversion
    rw [if_pos (by omega)] at h
    cases h

end Inside

/-- An image of one patch, of four bytes and the length `patchLength`, for the first chip of the
project 1. -/
def oneChip (patchLength : UInt8) : List UInt8 :=
  RTK_EPATCH_SIGNATURE ++ [0x2e, 0x5c, 0x0a, 0x8e] ++ [1, 0] ++ [1, 0] ++ [patchLength, 0] ++
    [22, 0, 0, 0] ++ [0xde, 0xad, 0xbe, 0xef] ++ [1, 1, 0] ++ extensionSectionSignature

theorem oneChip_sealed (patchLength : UInt8) : Sealed (oneChip patchLength) := ⟨rfl, rfl⟩

theorem patch_inside_oneChip : Sealed (oneChip 4) ∧ PatchInside (oneChip 4) ROM_LMP_8723b 0 := by
  refine ⟨oneChip_sealed 4, (patch_inside_iff (oneChip_sealed 4) ROM_LMP_8723b 0).mpr ⟨?_, ?_⟩⟩
  · have hrecords : ∀ p, RecordAt (oneChip 4) p → p = 28 := by
      intro p hp
      induction hp with
      | last => rfl
      | before _ hproject _ _ ih =>
        subst ih
        exact absurd (show IsProject (oneChip 4) 28 by decide) hproject
    intro p hp
    obtain rfl := hrecords p hp
    exact ⟨by decide, fun _ => by decide, fun h => absurd (show IsProject _ 28 by decide) h⟩
  · intro projId _ _
    refine ⟨by decide, fun i hi _ => ?_⟩
    obtain rfl : i = 0 := Nat.lt_one_iff.mp hi
    exact ⟨by decide, fun _ => by decide, fun _ => by decide, fun _ => by decide⟩

/-- An image of nothing but its signatures, whose walk leaves it at once; and one with a patch of
two bytes. -/
theorem patch_outside :
    (Sealed (RTK_EPATCH_SIGNATURE ++ extensionSectionSignature) ∧
      ¬ PatchInside (RTK_EPATCH_SIGNATURE ++ extensionSectionSignature) ROM_LMP_8723b 0) ∧
    Sealed (oneChip 2) ∧ ¬ PatchInside (oneChip 2) ROM_LMP_8723b 0 := by
  refine ⟨⟨⟨rfl, rfl⟩, ?_⟩, oneChip_sealed 2, ?_⟩
  · intro ⟨projId, hrun, _⟩
    have hfault : rtkGetFwProjectId (RTK_EPATCH_SIGNATURE ++ extensionSectionSignature) 7 =
        some (.error ⟨-94⟩) := by decide
    cases hfault.symm.trans hrun
  · intro ⟨projId, hrun, _, hentry⟩
    have hproject : rtkGetFwProjectId (oneChip 2) 28 = some (.ok 1) := by decide
    cases hproject.symm.trans hrun
    obtain ⟨r, hr, himage⟩ := hentry rfl
    have hshort : rtkGetPatchEntry (oneChip 2) 0 = .ok (some ⟨1, 2, 22⟩) := by decide
    cases hshort.symm.trans hr
    exact absurd (himage _ rfl).version (by decide)

/-- The whole function touches nothing outside where it takes the image as it is, or finds the
patch inside, whatever the config file; and on no other image. -/
theorem rtkGetFinalPatch_inside {fwBuf : List UInt8} (h : Sealed fwBuf) (proto : Proto)
    (configBuf : List UInt8) (lmpVersion : UInt16) (eversion : UInt8) :
    (∃ total, rtkGetFinalPatch proto fwBuf configBuf lmpVersion eversion = some (.ok total)) ↔
      (proto = .h4 ∨ proto = .threeWire ∧ lmpVersion = ROM_LMP_8723a) ∨
        PatchInside fwBuf lmpVersion eversion := by
  rw [rtkGetFinalPatch]
  by_cases hproto : proto = .h4 ∨ proto = .threeWire ∧ lmpVersion = ROM_LMP_8723a
  · rw [if_pos hproto, if_pos h.signature]
    exact ⟨fun _ => .inl hproto, fun _ => ⟨_, rfl⟩⟩
  rw [if_neg hproto, if_neg (not_not.mpr h.signature), if_neg (not_not.mpr h.extension),
    or_iff_right hproto]
  refine ⟨?_, ?_⟩
  · intro ⟨total, htotal⟩
    obtain ⟨run, hrun, hproject⟩ := Option.map_eq_some_iff.mp htotal
    obtain ⟨projId, rfl, hpatch⟩ := bind_eq_ok.mp hproject
    cases hprojId : projectIds[projId.toNat]? with
    | none =>
      simp only [hprojId] at hpatch
      cases hpatch
    | some projectId =>
      simp only [hprojId] at hpatch
      refine ⟨projId, hrun, (List.getElem?_eq_some_iff.mp hprojId).1, fun hlmp => ?_⟩
      rw [if_neg (not_not.mpr (Option.some.inj (hprojId.symm.trans hlmp)).symm)] at hpatch
      obtain ⟨r, hr, hcopied⟩ := bind_eq_ok.mp hpatch
      refine ⟨r, hr, fun entry hentry => ?_⟩
      obtain rfl := Option.mem_def.mp hentry
      -- nothing of the entry is checked before it is copied
      cases hcopy : copyPatch fwBuf configBuf entry with
      | error fault =>
        dsimp only at hcopied
        rw [hcopy] at hcopied
        cases hcopied
      | ok patch => exact inImage_of_copyPatch hcopy
  · intro ⟨projId, hrun, hprojId, hentry⟩
    rw [hrun, Option.map_some]
    simp only [ok_bind, List.getElem?_eq_getElem hprojId] at hentry ⊢
    split
    · exact ⟨_, rfl⟩
    · next hlmp =>
      obtain ⟨r, hr, himage⟩ := hentry (congrArg some (not_not.mp hlmp).symm)
      rw [hr, ok_bind]
      cases r with
      | none => exact ⟨_, rfl⟩
      | some entry =>
        obtain ⟨hrange, hversion⟩ := himage entry rfl
        have hlen := h.length
        dsimp only
        rw [copyPatch, loadBytes, if_pos hrange, ok_bind, loadBytes, if_pos (by omega), ok_bind,
          if_neg (by omega)]
        exact ⟨_, rfl⟩

theorem rtkGetFinalPatch_inside_oneChip :
    ∃ total, rtkGetFinalPatch .threeWire (oneChip 4) [] ROM_LMP_8723b 0 = some (.ok total) := by
  refine (rtkGetFinalPatch_inside (oneChip_sealed 4) .threeWire [] ROM_LMP_8723b 0).mpr (.inr ?_)
  refine ⟨1, by decide, by decide, fun _ => ⟨some ⟨1, 4, 22⟩, by decide, fun entry hentry => ?_⟩⟩
  cases hentry
  exact ⟨by decide, by decide⟩

end Lichee.Bluetooth

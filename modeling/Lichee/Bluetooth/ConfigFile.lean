import Lichee.Base.Loop
import Lichee.Base.Memory

/- The config file of a Realtek controller (`rtk_parse_config_file` of hciattach_rtk.c). Behind a
   signature and a length stand entries, each of an offset, a length and so many bytes; the one
   with the offset 0xc holds the baud rate, and in its byte 12 the flow control. The loop compares
   a 16-bit cursor with the length of the file but reads every entry's header, and byte 12 of an
   entry 0xc, without looking whether they are there (`parse_inside_iff`). -/
namespace Lichee.Bluetooth
open Base

abbrev RTK_VENDOR_CONFIG_MAGIC : UInt32 := 0x8723ab55

/-- `sizeof(struct rtk_bt_vendor_config)` -/
abbrev configHeaderSize : Nat := 6

/-- `sizeof(struct rtk_bt_vendor_config_entry)` -/
abbrev entryHeaderSize : Nat := 3

/-- The variables of the loop: the cursor, the address of the entry, and what was found. -/
structure ConfigWalk where
  i : UInt16
  entry : Int
  baudrate : UInt32
  hwFlowControl : Int
  deriving DecidableEq, Repr

/-- Bit 2 of byte 12, of an entry that is long enough. -/
def entryFlowControl (buf : List UInt8) (entryLen : UInt8) (w : ConfigWalk) : Except Fault Int :=
  if entryLen ≥ 12 then do
    let data12 ← load8 buf (w.entry + 3 + 12)
    .ok (if data12 &&& 0x4 ≠ 0 then 1 else 0)
  else .ok w.hwFlowControl

/-- The entry of the baud rate. The debug message prints its byte 12, whatever its length. -/
def entryBaudrate (buf : List UInt8) (entryLen : UInt8) (w : ConfigWalk) :
    Except Fault ConfigWalk := do
  let baudrate ← load32 buf (w.entry + 3)
  let hwFlowControl ← entryFlowControl buf entryLen w
  let _ ← load8 buf (w.entry + 3 + 12)
  .ok { w with baudrate := baudrate, hwFlowControl := hwFlowControl }

/-- What an entry sets. -/
def configEntry (buf : List UInt8) (offset : UInt16) (entryLen : UInt8) (w : ConfigWalk) :
    Except Fault ConfigWalk :=
  if offset = 0xc then entryBaudrate buf entryLen w else .ok w

/-- One iteration. -/
def configStep (buf : List UInt8) (w : ConfigWalk) : Except Fault ConfigWalk := do
  let offset ← load16 buf w.entry
  let entryLen ← load8 buf (w.entry + 2)
  let w ← configEntry buf offset entryLen w
  let temp := entryLen.toUInt16 + .ofNat entryHeaderSize
  .ok { w with i := w.i + temp, entry := w.entry + temp.toNat }

/-- `for (i=0; i<config_len;)` -/
def configMore (configLen : UInt16) (w : ConfigWalk) : Bool := w.i < configLen

/-- What the function returns, and the flow control it sets. -/
structure ConfigFound where
  baudrate : UInt32
  hwFlowControl : Int
  deriving DecidableEq, Repr

/-- The checks of the signature and of the length, which they return. -/
def configChecks (configBuf : List UInt8) : Except Fault (Option UInt16) := do
  let configLen ← load16 configBuf 4
  let signature ← load32 configBuf 0
  if signature ≠ RTK_VENDOR_CONFIG_MAGIC then .ok none
  else if (configLen.toNat : Int) ≠ configBuf.length - configHeaderSize then .ok none
  else .ok (some configLen)

/-- `rtk_parse_config_file`, of a file's bytes, in a process with a flow control set before. An
entry takes at least three bytes, so there are no more iterations than bytes. -/
def rtkParseConfigFile (configBuf : List UInt8) (hwFlowControl : Int) :
    Option (Except Fault ConfigFound) :=
  match configChecks configBuf with
  | .error fault => some (.error fault)
  | .ok none => some (.ok ⟨0, hwFlowControl⟩)
  | .ok (some configLen) =>
    (whileLoop (configMore configLen) (configStep configBuf) (configBuf.length + 1)
      ⟨0, configHeaderSize, 0, hwFlowControl⟩).map fun r =>
        r.map fun w => ⟨w.baudrate, w.hwFlowControl⟩

/-! ## Entries -/

section Entries
variable (buf : List UInt8)

/-- The file passes the checks of its signature and its length. -/
structure Signed : Prop where
  length : configHeaderSize ≤ buf.length
  signature : word buf 0 = RTK_VENDOR_CONFIG_MAGIC
  dataLen : (half buf 4).toNat + configHeaderSize = buf.length

/-- An entry starts at `p`: the first one behind the header, each other one behind an entry that
starts in the file. -/
inductive EntryAt : Nat → Prop
  | first : EntryAt configHeaderSize
  | next {p : Nat} (h : EntryAt p) (hp : p < buf.length) :
      EntryAt (p + entryHeaderSize + (byteAt buf (p + 2)).toNat)

/-- An entry's header is in the file, for the offset 0xc thirteen bytes behind it too, and it ends
before the cursor would wrap. -/
structure EntryFits (p : Nat) : Prop where
  header : p + entryHeaderSize ≤ buf.length
  data : half buf p = 0xc → p + entryHeaderSize + 13 ≤ buf.length
  cursor : p + entryHeaderSize + (byteAt buf (p + 2)).toNat < configHeaderSize + 65536

end Entries

section Step
variable {buf : List UInt8} {p : Nat} {w w' : ConfigWalk}

/-- What an entry sets is read where it is in the file. -/
theorem configEntry_inside (hw : w.entry = p) (entryLen : UInt8)
    (hdata : half buf p = 0xc → p + entryHeaderSize + 13 ≤ buf.length) :
    ∃ baudrate hwFlowControl, configEntry buf (half buf p) entryLen w =
      .ok ⟨w.i, w.entry, baudrate, hwFlowControl⟩ := by
  unfold entryHeaderSize at hdata
  rw [configEntry]
  split
  · next hc =>
    have hin := hdata hc
    have hbaud : load32 buf ((p : Int) + 3) = .ok (word buf (p + 3)) :=
      load32_eq (a := p + 3) (by omega)
    have hflow : load8 buf ((p : Int) + 3 + 12) = .ok (byteAt buf (p + 15)) :=
      load8_eq (a := p + 15) (by omega)
    rw [entryBaudrate, entryFlowControl, hw, hbaud, ok_bind, hflow]
    split
    · exact ⟨_, _, rfl⟩
    · exact ⟨_, _, rfl⟩
  · exact ⟨_, _, rfl⟩

/-- An iteration that reads only what is there found the entry's header, and for the offset 0xc
byte 12 of its data. -/
theorem inside_of_configStep (hw : w.entry = p) (h : configStep buf w = .ok w') :
    p + entryHeaderSize ≤ buf.length ∧
      (half buf p = 0xc → p + entryHeaderSize + 13 ≤ buf.length) := by
  rw [configStep, hw] at h
  obtain ⟨offset, hoffset, h⟩ := bind_eq_ok.mp h
  obtain ⟨entryLen, hlen, h⟩ := bind_eq_ok.mp h
  obtain ⟨w₁, hentry, -⟩ := bind_eq_ok.mp h
  have hin := inside_of_load8 hlen
  rw [load16_eq (by omega)] at hoffset
  cases hoffset
  unfold entryHeaderSize
  refine ⟨by omega, fun hc => ?_⟩
  rw [configEntry, if_pos hc, entryBaudrate, hw] at hentry
  obtain ⟨baudrate, -, hentry⟩ := bind_eq_ok.mp hentry
  obtain ⟨hwFlowControl, -, hentry⟩ := bind_eq_ok.mp hentry
  obtain ⟨data12, hdata, -⟩ := bind_eq_ok.mp hentry
  have hin := inside_of_load8 hdata
  omega

/-- With those in the file, it goes on behind the entry. -/
theorem configStep_inside (hw : w.entry = p) (hheader : p + entryHeaderSize ≤ buf.length)
    (hdata : half buf p = 0xc → p + entryHeaderSize + 13 ≤ buf.length) :
    ∃ w', configStep buf w = .ok w' ∧
      w'.i.toNat = (w.i.toNat + (byteAt buf (p + 2)).toNat + 3) % 65536 ∧
      w'.entry = ↑(p + entryHeaderSize + (byteAt buf (p + 2)).toNat) := by
  have hlen : load8 buf ((p : Int) + 2) = .ok (byteAt buf (p + 2)) :=
    load8_eq (a := p + 2) (by unfold entryHeaderSize at hheader; omega)
  obtain ⟨baudrate, hwFlowControl, hentry⟩ := configEntry_inside hw (byteAt buf (p + 2)) hdata
  rw [configStep, hw, load16_eq (by unfold entryHeaderSize at hheader; omega), ok_bind, hlen,
    ok_bind, hentry, ok_bind, hw]
  have htemp : ((byteAt buf (p + 2)).toUInt16 + 3).toNat = (byteAt buf (p + 2)).toNat + 3 := by
    have := (byteAt buf (p + 2)).toNat_lt
    simp only [UInt16.toNat_add, UInt8.toNat_toUInt16, UInt16.reduceToNat]
    omega
  refine ⟨_, rfl, ?_, ?_⟩
  · show (w.i + ((byteAt buf (p + 2)).toUInt16 + 3)).toNat = _
    rw [UInt16.toNat_add, htemp, Nat.add_assoc]
  · show (p : Int) + ((byteAt buf (p + 2)).toUInt16 + 3).toNat = _
    rw [htemp]
    unfold entryHeaderSize
    omega

end Step

/-! ## The run -/

/-- The loop stands at the position `p` of the file. -/
structure At (w : ConfigWalk) (p : Nat) : Prop where
  entry : w.entry = p
  cursor : w.i.toNat + configHeaderSize = p

section Run
variable {buf : List UInt8} {p : Nat} {w : ConfigWalk}

theorem configChecks_signed (h : Signed buf) : configChecks buf = .ok (some (half buf 4)) := by
  obtain ⟨hlen, hsig, hdata⟩ := h
  unfold configHeaderSize at hlen hdata
  have hload : load16 buf 4 = .ok (half buf 4) := load16_eq (a := 4) (by omega)
  have hword : load32 buf 0 = .ok (word buf 0) := load32_eq (a := 0) (by omega)
  rw [configChecks, hload, ok_bind, hword, ok_bind, if_neg (not_not.mpr hsig), if_neg]
  unfold configHeaderSize
  omega

/-- The loop goes on while it stands in the file. -/
theorem configMore_at (hbuf : Signed buf) (h : At w p) :
    configMore (half buf 4) w = true ↔ p < buf.length := by
  have hcursor := h.cursor
  have hdata := hbuf.dataLen
  rw [configMore, decide_eq_true_iff, UInt16.lt_iff_toNat_lt]
  omega

/-- Behind an entry that fits it stands at the next one. -/
theorem configStep_at (h : At w p) (hfit : EntryFits buf p) :
    ∃ w', configStep buf w = .ok w' ∧
      At w' (p + entryHeaderSize + (byteAt buf (p + 2)).toNat) := by
  obtain ⟨w', hstep, hi, hentry⟩ := configStep_inside h.entry hfit.header hfit.data
  refine ⟨w', hstep, hentry, ?_⟩
  have hcursor := h.cursor
  have hend := hfit.cursor
  rw [hi]
  unfold configHeaderSize entryHeaderSize at *
  omega

/-- Where every entry fits the loop is at an entry whenever it is at its head. -/
theorem reach_at (hbuf : Signed buf)
    (hfit : ∀ p, EntryAt buf p → p < buf.length → EntryFits buf p) {w₀ : ConfigWalk}
    (hw₀ : At w₀ configHeaderSize)
    (h : Reach (configMore (half buf 4)) (configStep buf) w₀ w) :
    ∃ p, EntryAt buf p ∧ At w p := by
  refine h.invariant (I := fun w => ∃ p, EntryAt buf p ∧ At w p) ⟨_, .first, hw₀⟩ ?_
  intro t u ⟨p, hp, ht⟩ hg hstep
  have hlt := (configMore_at hbuf ht).mp hg
  obtain ⟨u', hstep', hu⟩ := configStep_at ht (hfit p hp hlt)
  rw [hstep] at hstep'
  cases hstep'
  exact ⟨_, .next hp hlt, hu⟩

/-- An entry that the loop comes to, and from which it goes on without a read outside as long as it
goes on, fits. A wrapped cursor would bring the loop to an entry behind the file. -/
theorem fits_of_reach (hbuf : Signed buf) {w₀ : ConfigWalk}
    (hok : ∀ {w}, Reach (configMore (half buf 4)) (configStep buf) w₀ w →
      configMore (half buf 4) w = true → ∃ w', configStep buf w = .ok w')
    (hr : Reach (configMore (half buf 4)) (configStep buf) w₀ w) (hw : At w p)
    (hlt : p < buf.length) : EntryFits buf p := by
  have hg := (configMore_at hbuf hw).mpr hlt
  obtain ⟨w₁, hstep⟩ := hok hr hg
  obtain ⟨hheader, hdata⟩ := inside_of_configStep hw.entry hstep
  refine ⟨hheader, hdata, ?_⟩
  by_contra hwrap
  obtain ⟨w', hstep', hi, hentry⟩ := configStep_inside hw.entry hheader hdata
  have hcursor := hw.cursor
  have hdlen := hbuf.dataLen
  have hL := (half buf 4).toNat_lt
  have hbyte := (byteAt buf (p + 2)).toNat_lt
  have hg' : configMore (half buf 4) w' = true := by
    rw [configMore, decide_eq_true_iff, UInt16.lt_iff_toNat_lt, hi]
    unfold configHeaderSize entryHeaderSize at *
    omega
  obtain ⟨w'', hstep''⟩ := hok (hr.tail hg hstep') hg'
  have hin := (inside_of_configStep hentry hstep'').1
  unfold configHeaderSize entryHeaderSize at *
  omega

/-- A loop that came to its end stood at every entry, and each fits. Induction along the chain of
entries. -/
theorem fits_of_ends (hbuf : Signed buf) {w₀ w₁ : ConfigWalk} (hw₀ : At w₀ configHeaderSize)
    (hends : Ends (configMore (half buf 4)) (configStep buf) w₀ (.ok w₁)) (hp : EntryAt buf p)
    (hlt : p < buf.length) : EntryFits buf p ∧
      ∃ w, Reach (configMore (half buf 4)) (configStep buf) w₀ w ∧ At w p := by
  have hok : ∀ {w}, Reach (configMore (half buf 4)) (configStep buf) w₀ w →
      configMore (half buf 4) w = true → ∃ w', configStep buf w = .ok w' := by
    intro w hr hg
    have hends' := (ends_of_reach hr).mp hends
    cases hstep : configStep buf w with
    | ok w' => exact ⟨w', rfl⟩
    | error e => cases (ends_error hg hstep).mp hends'
  induction hp with
  | first => exact ⟨fits_of_reach hbuf hok .refl hw₀ hlt, w₀, .refl, hw₀⟩
  | next hp hp' ih =>
    obtain ⟨hfit, w, hr, hw⟩ := ih hp'
    obtain ⟨w', hstep, hw'⟩ := configStep_at hw hfit
    have hr' := hr.tail ((configMore_at hbuf hw).mpr hp') hstep
    exact ⟨fits_of_reach hbuf hok hr' hw' hlt, w', hr', hw'⟩

/-- **The entries of a file that passes the checks are read inside it, to the end, just where each
of them fits.** -/
theorem parse_inside_iff (hbuf : Signed buf) (hwFlowControl : Int) :
    (∃ found, rtkParseConfigFile buf hwFlowControl = some (.ok found)) ↔
      ∀ p, EntryAt buf p → p < buf.length → EntryFits buf p := by
  have hw₀ : At ⟨0, configHeaderSize, 0, hwFlowControl⟩ configHeaderSize := ⟨rfl, rfl⟩
  have hparse : rtkParseConfigFile buf hwFlowControl =
      (whileLoop (configMore (half buf 4)) (configStep buf) (buf.length + 1)
        ⟨0, configHeaderSize, 0, hwFlowControl⟩).map fun r =>
          r.map fun w => ⟨w.baudrate, w.hwFlowControl⟩ := by
    unfold rtkParseConfigFile
    rw [configChecks_signed hbuf]
  rw [hparse]
  refine ⟨?_, ?_⟩
  · intro ⟨found, h⟩ p hp hlt
    obtain ⟨r, hr, hmap⟩ := Option.map_eq_some_iff.mp h
    cases r with
    | error e => cases hmap
    | ok w => exact (fits_of_ends hbuf hw₀ ⟨_, hr⟩ hp hlt).1
  · intro hfit
    -- each entry has a header, so the walk comes nearer to the end
    have hmeasure : ∀ t u, Reach (configMore (half buf 4)) (configStep buf)
        ⟨0, configHeaderSize, 0, hwFlowControl⟩ t → configMore (half buf 4) t = true →
          configStep buf t = .ok u →
            buf.length - u.entry.toNat < buf.length - t.entry.toNat := by
      intro t u hr hg hstep
      obtain ⟨p, hp, ht⟩ := reach_at hbuf hfit hw₀ hr
      have hlt := (configMore_at hbuf ht).mp hg
      obtain ⟨u', hstep', hu⟩ := configStep_at ht (hfit p hp hlt)
      rw [hstep] at hstep'
      cases hstep'
      rw [ht.entry, hu.entry, Int.toNat_natCast, Int.toNat_natCast]
      unfold entryHeaderSize
      omega
    obtain ⟨r, hr⟩ := whileLoop_terminates (fun w : ConfigWalk => buf.length - w.entry.toNat)
      hmeasure (n := buf.length) (Nat.sub_le _ _)
    rw [hr]
    cases r with
    | ok w => exact ⟨_, rfl⟩
    | error e =>
      obtain ⟨t, hreach, hg, hstep⟩ := reach_of_whileLoop_error hr
      obtain ⟨p, hp, ht⟩ := reach_at hbuf hfit hw₀ hreach
      obtain ⟨u, hstep', -⟩ := configStep_at ht (hfit p hp ((configMore_at hbuf ht).mp hg))
      rw [hstep] at hstep'
      cases hstep'

end Run

/-- A file of one entry 0xc with sixteen bytes of data. -/
def uartConfig : List UInt8 :=
  [0x55, 0xab, 0x23, 0x87, 19, 0, 0x0c, 0, 16, 0x02, 0x80, 0x92, 0x04, 0x50, 0xc5, 0xea, 0x19,
    0xe1, 0x1b, 0xfd, 0xaf, 0x5f, 0x01, 0xa4, 0x0b]

theorem uartConfig_signed : Signed uartConfig := ⟨by decide, by decide, by decide⟩

theorem parse_inside_uart : Signed uartConfig ∧
    ∃ found, rtkParseConfigFile uartConfig 0 = some (.ok found) := by
  refine ⟨uartConfig_signed, (parse_inside_iff uartConfig_signed 0).mpr ?_⟩
  have hentries : ∀ p, EntryAt uartConfig p → p = 6 ∨ 25 ≤ p := by
    intro p hp
    induction hp with
    | first => exact .inl rfl
    | @next p _ hlt ih =>
      obtain rfl | hle := ih
      · exact .inr (by decide)
      · exact absurd hlt (Nat.not_lt.mpr hle)
  intro p hp hlt
  obtain rfl | hle := hentries p hp
  · exact ⟨by decide, fun _ => by decide, by decide⟩
  · exact absurd hlt (Nat.not_lt.mpr hle)

/-- An entry 0xc with the four bytes of a baud rate, whose byte 12 is not in the file; and an entry
whose header is cut off. -/
theorem parse_outside :
    (Signed [0x55, 0xab, 0x23, 0x87, 7, 0, 0x0c, 0, 4, 0x02, 0x80, 0x92, 0x04] ∧
      rtkParseConfigFile [0x55, 0xab, 0x23, 0x87, 7, 0, 0x0c, 0, 4, 0x02, 0x80, 0x92, 0x04] 0 =
        some (.error ⟨21⟩)) ∧
    Signed [0x55, 0xab, 0x23, 0x87, 2, 0, 0x0c, 0] ∧
      rtkParseConfigFile [0x55, 0xab, 0x23, 0x87, 2, 0, 0x0c, 0] 0 = some (.error ⟨8⟩) :=
  ⟨⟨⟨by decide, by decide, by decide⟩, by decide⟩, ⟨by decide, by decide, by decide⟩, by decide⟩

end Lichee.Bluetooth

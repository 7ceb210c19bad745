import Lichee.Base.Loop
import Lichee.Base.Memory
import Lichee.Base.Paths
import Lichee.Base.Scanf
import Mathlib.Data.Option.Basic

/- The uevents of wifitester (wifitester.c). A datagram is received into a buffer that is two bytes
   longer and zeroed, and read as strings up to an empty one; a pointer is kept to what stands
   behind each of three keys. The scan ends in the buffer on every datagram, and the strings it
   met decide the rest (`scanKeys_strings`): the code behind it takes the subsystem, and of an
   sdio or usb event one string more, to be there, and copies the end of an sdio id into ten
   bytes (`parse_total_iff`). -/
namespace Lichee.Wifitester
open Base

abbrev chColon : UInt8 := 0x3a

abbrev keySubsystem : List UInt8 := ascii "SUBSYSTEM="
abbrev keySdioId : List UInt8 := ascii "SDIO_ID="
abbrev keyProduct : List UInt8 := ascii "PRODUCT="

/-! ## The buffer -/

abbrev UEVENT_MSG_LEN : Nat := 1024

/-- The buffer with a datagram: `recv` writes over what `memset` cleared, and no code writes the
two bytes behind. -/
def ueventBuf (datagram : List UInt8) : List UInt8 :=
  datagram ++ zeros (UEVENT_MSG_LEN + 2 - datagram.length)

/-! ## The scan -/

/-- The variables of the scan; a pointer is an address in the buffer. -/
structure Scan where
  msg : Nat
  subsystem : Option Nat
  sdioId : Option Nat
  usbProduct : Option Nat
  deriving DecidableEq, Repr

/-- The key of a string. -/
def scanKey (buf : List UInt8) (s : Scan) : Except Fault Scan := do
  if ← strncmpAt buf s.msg keySubsystem then
    .ok { s with msg := s.msg + 10, subsystem := some (s.msg + 10) }
  else if ← strncmpAt buf s.msg keySdioId then
    .ok { s with msg := s.msg + 8, sdioId := some (s.msg + 8) }
  else if ← strncmpAt buf s.msg keyProduct then
    .ok { s with msg := s.msg + 8, usbProduct := some (s.msg + 8) }
  else .ok s

/-- One string, `none` where it is empty. -/
def scanString (buf : List UInt8) (s : Scan) : Except Fault (Option Scan) := do
  let c ← load8 buf s.msg
  if c = 0 then .ok none
  else do
    let s ← scanKey buf s
    let rest ← strAt buf s.msg
    .ok (some { s with msg := s.msg + rest.length + 1 })

/-- The scan leaves its loop at an empty string, or by an access outside. -/
def scanStep (buf : List UInt8) (s : Scan) : Except (Except Fault Scan) Scan :=
  match scanString buf s with
  | .error fault => .error (.error fault)
  | .ok none => .error (.ok s)
  | .ok (some s) => .ok s

/-- `while(*msg)`. A string has a byte at least, so there are no more turns than bytes. -/
def scanKeys (buf : List UInt8) : Option (Except Fault Scan) :=
  match whileLoop (fun _ => true) (scanStep buf) (buf.length + 1) ⟨0, none, none, none⟩ with
  | some (.error r) => some r
  | _ => none

/-! ## The event -/

/-- What goes wrong with an event. -/
inductive UeventFault where
  /-- an access outside the buffer -/
  | outside (fault : Fault)
  /-- a string function on NULL -/
  | missing
  /-- a copy of so many bytes into `sdio_device_id` -/
  | overflow (n : Nat)
  deriving DecidableEq, Repr

/-- A pointer a string function is called on. -/
def present (p : Option Nat) : Except UeventFault Nat :=
  match p with
  | some p => .ok p
  | none => .error .missing

/-- `strrchr`, and the string behind the character. -/
def afterLast (c : UInt8) (s : List UInt8) : Option (List UInt8) :=
  if c ∈ s then some (s.reverse.takeWhile (· != c)).reverse else none

/-- `sizeof(sdio_device_id)` -/
abbrev sdioDeviceIdSize : Nat := 10

/-- The branch of sdio events: the device that is looked up. -/
def sdioEvent (long : Nat) (buf : List UInt8) (s : Scan) : Except UeventFault (Option Nat) := do
  let p ← present s.sdioId
  let sdioId ← (strAt buf p).mapError .outside
  match afterLast chColon sdioId with
  | none => .ok none
  | some subid =>
    if subid.length + 1 > sdioDeviceIdSize then .error (.overflow (subid.length + 1))
    else .ok (some ((strtoulHex long subid + 0x10000) % 2 ^ long))

/-- The branch of usb events: `strtok` gives the second number of the product. -/
def usbEvent (long : Nat) (buf : List UInt8) (s : Scan) : Except UeventFault (Option Nat) := do
  let p ← present s.usbProduct
  let product ← (strAt buf p).mapError .outside
  .ok (some (((components product)[1]?.map (strtoulHex long)).getD 0))

/-- What follows the scan. -/
def dispatch (long : Nat) (buf : List UInt8) (s : Scan) : Except UeventFault (Option Nat) := do
  let p ← present s.subsystem
  if ← (strncmpAt buf p (ascii "sdio")).mapError .outside then sdioEvent long buf s
  else if ← (strncmpAt buf p (ascii "usb")).mapError .outside then usbEvent long buf s
  else .ok none

/-- `parse_uevent`: the id it looks a device up by, if any. -/
def parseUevent (long : Nat) (buf : List UInt8) : Option (Except UeventFault (Option Nat)) :=
  (scanKeys buf).map fun r => do
    let s ← r.mapError .outside
    dispatch long buf s

/-! ## The strings of a datagram -/

/-- The strings of a text up to an empty one, `s` being the start of the first. -/
def stringsFrom (s : List UInt8) : List UInt8 → List (List UInt8)
  | [] => if s = [] then [] else [s]
  | c :: text =>
    if c = 0 then if s = [] then [] else s :: stringsFrom [] text
    else stringsFrom (s ++ [c]) text

def eventStrings (datagram : List UInt8) : List (List UInt8) := stringsFrom [] datagram

/-- What the last string with a key has behind it. -/
def valueOf (key : List UInt8) (strings : List (List UInt8)) : Option (List UInt8) :=
  (strings.filter key.isPrefixOf).getLast?.map (·.drop key.length)

/-- An event has its subsystem, an sdio event its id, with at most nine bytes behind the last
colon if it has one, and a usb event its product. -/
def Complete (datagram : List UInt8) : Prop :=
  ∃ subsystem, valueOf keySubsystem (eventStrings datagram) = some subsystem ∧
    if (ascii "sdio").isPrefixOf subsystem then
      ∃ sdioId, valueOf keySdioId (eventStrings datagram) = some sdioId ∧
        ∀ subid, afterLast chColon sdioId = some subid → subid.length + 1 ≤ sdioDeviceIdSize
    else if (ascii "usb").isPrefixOf subsystem then
      ∃ product, valueOf keyProduct (eventStrings datagram) = some product
    else True

/-! ## What the scan meets -/

section Keys
variable {key str : List UInt8} {strings : List (List UInt8)}

/-- A string with a key has no other. -/
theorem isPrefixOf_apart {other : List UInt8} (h : key.isPrefixOf str = true)
    (h₁ : ¬ key <+: other) (h₂ : ¬ other <+: key) : other.isPrefixOf str = false := by
  rw [Bool.eq_false_iff, ne_eq, List.isPrefixOf_iff_prefix]
  intro hother
  rcases List.prefix_or_prefix_of_prefix (List.isPrefixOf_iff_prefix.mp h) hother with hp | hp
  · exact h₁ hp
  · exact h₂ hp

/-- A string with the key takes the place of the strings in front of it. -/
theorem valueOf_snoc (h : key.isPrefixOf str = true) :
    valueOf key (strings ++ [str]) = some (str.drop key.length) := by
  rw [valueOf, List.filter_append, List.filter_cons_of_pos h, List.filter_nil,
    List.getLast?_append_cons]
  rfl

theorem valueOf_snoc_of_not (h : key.isPrefixOf str = false) :
    valueOf key (strings ++ [str]) = valueOf key strings := by
  rw [valueOf, List.filter_append, List.filter_cons_of_neg (Bool.eq_false_iff.mp h),
    List.filter_nil, List.append_nil, valueOf]

end Keys

/-- Each pointer stands at what the last string with its key has behind it. -/
structure Seen (buf : List UInt8) (strings : List (List UInt8)) (s : Scan) : Prop where
  subsystem : Option.Rel (StringAt buf) s.subsystem (valueOf keySubsystem strings)
  sdioId : Option.Rel (StringAt buf) s.sdioId (valueOf keySdioId strings)
  usbProduct : Option.Rel (StringAt buf) s.usbProduct (valueOf keyProduct strings)

section Scanning
variable {buf str : List UInt8} {strings : List (List UInt8)} {s : Scan}

/-- A key that is met: its pointer is moved behind it. -/
theorem pointer_moved {key : List UInt8} {p : Nat} (h : StringAt buf p str)
    (hkey : key.isPrefixOf str = true) :
    Option.Rel (StringAt buf) (some (p + key.length)) (valueOf key (strings ++ [str])) := by
  rw [valueOf_snoc hkey]
  exact .some (h.drop (List.isPrefixOf_iff_prefix.mp hkey).length_le)

/-- A key that is not: its pointer stays. -/
theorem pointer_kept {key : List UInt8} {p : Option Nat} (hkey : key.isPrefixOf str = false)
    (h : Option.Rel (StringAt buf) p (valueOf key strings)) :
    Option.Rel (StringAt buf) p (valueOf key (strings ++ [str])) := by
  rw [valueOf_snoc_of_not hkey]
  exact h

/-- The key of a string moves its pointer, and the scan with it. -/
theorem scanKey_next (hs : Seen buf strings s) (h : StringAt buf s.msg str) :
    ∃ s', scanKey buf s = .ok s' ∧ Seen buf (strings ++ [str]) s' ∧
      ∃ n ≤ str.length, s'.msg = s.msg + n := by
  rw [scanKey, h.strncmpAt (by decide), ok_bind]
  cases hsub : keySubsystem.isPrefixOf str with
  | true =>
    have hsdio := isPrefixOf_apart hsub (show ¬ _ <+: keySdioId by decide) (by decide)
    have husb := isPrefixOf_apart hsub (show ¬ _ <+: keyProduct by decide) (by decide)
    exact ⟨_, rfl, ⟨pointer_moved h hsub, pointer_kept hsdio hs.sdioId,
      pointer_kept husb hs.usbProduct⟩, 10, (List.isPrefixOf_iff_prefix.mp hsub).length_le, rfl⟩
  | false =>
    rw [if_neg Bool.false_ne_true, h.strncmpAt (by decide), ok_bind]
    cases hsdio : keySdioId.isPrefixOf str with
    | true =>
      have husb := isPrefixOf_apart hsdio (show ¬ _ <+: keyProduct by decide) (by decide)
      exact ⟨_, rfl, ⟨pointer_kept hsub hs.subsystem, pointer_moved h hsdio,
        pointer_kept husb hs.usbProduct⟩, 8, (List.isPrefixOf_iff_prefix.mp hsdio).length_le, rfl⟩
    | false =>
      rw [if_neg Bool.false_ne_true, h.strncmpAt (by decide), ok_bind]
      cases husb : keyProduct.isPrefixOf str with
      | true =>
        exact ⟨_, rfl, ⟨pointer_kept hsub hs.subsystem, pointer_kept hsdio hs.sdioId,
          pointer_moved h husb⟩, 8, (List.isPrefixOf_iff_prefix.mp husb).length_le, rfl⟩
      | false =>
        exact ⟨_, rfl, ⟨pointer_kept hsub hs.subsystem, pointer_kept hsdio hs.sdioId,
          pointer_kept husb hs.usbProduct⟩, 0, Nat.zero_le _, rfl⟩

/-- The scan leaves its loop at an empty string. -/
theorem scanStep_end (h : StringAt buf s.msg []) : scanStep buf s = .error (.ok s) := by
  rw [scanStep, scanString, h.load8]
  rfl

/-- A turn takes a string that is not empty, and goes on behind its terminator. -/
theorem scanStep_next {pre rest : List UInt8} (hbuf : buf = pre ++ (str ++ 0 :: rest))
    (hmsg : s.msg = pre.length) (hstr : 0 ∉ str) (hs : Seen buf strings s) (hne : str ≠ []) :
    ∃ s', scanStep buf s = .ok s' ∧ Seen buf (strings ++ [str]) s' ∧
      s'.msg = (pre ++ (str ++ [0])).length ∧ buf = (pre ++ (str ++ [0])) ++ rest := by
  have h : StringAt buf s.msg str := ⟨⟨pre, rest, hbuf, hmsg.symm⟩, hstr⟩
  obtain ⟨s', hkey, hseen, n, hn, hmsg'⟩ := scanKey_next hs h
  have hrest : StringAt buf s'.msg (str.drop n) := by
    rw [hmsg']
    exact h.drop hn
  have hhead : str.headD 0 ≠ 0 := by
    cases str with
    | nil => exact absurd rfl hne
    | cons c str => exact fun hc => hstr (hc ▸ List.mem_cons_self)
  refine ⟨{ s' with msg := s'.msg + (str.drop n).length + 1 }, ?_,
    ⟨hseen.subsystem, hseen.sdioId, hseen.usbProduct⟩, ?_, ?_⟩
  · rw [scanStep, scanString, h.load8, ok_bind, if_neg hhead, hkey, ok_bind, hrest.strAt]
    rfl
  · simp only [hmsg', hmsg, List.length_drop, List.length_append, List.length_singleton]
    omega
  · rw [hbuf, List.append_assoc, List.append_assoc]
    rfl

/-- A turn at a string takes it, or ends the scan; `hnext` is the scan behind the string. -/
theorem scan_string {pre rest : List UInt8} {more : List (List UInt8)} {n : Nat}
    (hbuf : buf = pre ++ (str ++ 0 :: rest)) (hmsg : s.msg = pre.length) (hstr : 0 ∉ str)
    (hs : Seen buf strings s)
    (hnext : ∀ s', str ≠ [] → Seen buf (strings ++ [str]) s' →
      s'.msg = (pre ++ (str ++ [0])).length → buf = (pre ++ (str ++ [0])) ++ rest →
      ∃ s'', whileLoop (fun _ => true) (scanStep buf) n s' = some (.error (.ok s'')) ∧
        Seen buf (strings ++ [str] ++ more) s'') :
    ∃ s', whileLoop (fun _ => true) (scanStep buf) (n + 1) s = some (.error (.ok s')) ∧
      Seen buf (strings ++ if str = [] then [] else str :: more) s' := by
  by_cases hne : str = []
  · subst hne
    have hat : StringAt buf s.msg [] := ⟨⟨pre, rest, hbuf, hmsg.symm⟩, hstr⟩
    refine ⟨s, whileLoop_error rfl (scanStep_end hat) n, ?_⟩
    rw [if_pos rfl, List.append_nil]
    exact hs
  · obtain ⟨s', hstep, hseen, hmsg', hbuf'⟩ := scanStep_next hbuf hmsg hstr hs hne
    obtain ⟨s'', hrun, hseen'⟩ := hnext s' hne hseen hmsg' hbuf'
    refine ⟨s'', ?_, ?_⟩
    · rw [whileLoop_next rfl hstep]
      exact hrun
    · rw [if_neg hne, List.append_cons]
      exact hseen'

/-- The scan takes the strings of a text with two zeros behind it, from a place in the first.
Induction on the text. -/
theorem scan_run {pre text : List UInt8} {k : Nat}
    (hbuf : buf = pre ++ (str ++ (text ++ zeros (k + 2)))) (hmsg : s.msg = pre.length)
    (hstr : 0 ∉ str) (hs : Seen buf strings s) {n : Nat}
    (hn : str.length + text.length < n) :
    ∃ s', whileLoop (fun _ => true) (scanStep buf) n s = some (.error (.ok s')) ∧
      Seen buf (strings ++ stringsFrom str text) s' := by
  induction text generalizing pre str strings s n with
  | nil =>
    obtain ⟨n, rfl⟩ : ∃ m, n = m + 1 := ⟨n - 1, by omega⟩
    have hbuf₀ : buf = pre ++ (str ++ 0 :: zeros (k + 1)) := hbuf
    refine scan_string hbuf₀ hmsg hstr hs fun s' hne hseen hmsg' hbuf' => ?_
    -- the string ends at the first zero, and the second one is the empty string
    have hat : StringAt buf s'.msg [] := ⟨⟨_, zeros k, hbuf', hmsg'.symm⟩, List.not_mem_nil⟩
    have hlen := List.length_pos_iff.mpr hne
    obtain ⟨n, rfl⟩ : ∃ m, n = m + 1 := ⟨n - 1, by omega⟩
    refine ⟨s', whileLoop_error rfl (scanStep_end hat) n, ?_⟩
    rw [List.append_nil]
    exact hseen
  | cons c text ih =>
    rw [List.length_cons] at hn
    rw [stringsFrom]
    by_cases hc : c = 0
    · subst hc
      rw [if_pos rfl]
      obtain ⟨n, rfl⟩ : ∃ m, n = m + 1 := ⟨n - 1, by omega⟩
      have hbuf₀ : buf = pre ++ (str ++ 0 :: (text ++ zeros (k + 2))) := hbuf
      refine scan_string hbuf₀ hmsg hstr hs fun s' hne hseen hmsg' hbuf' => ?_
      have hbuf₁ : buf = (pre ++ (str ++ [0])) ++ ([] ++ (text ++ zeros (k + 2))) := hbuf'
      have hn' : ([] : List UInt8).length + text.length < n := by
        rw [List.length_nil]
        omega
      exact ih hbuf₁ hmsg' List.not_mem_nil hseen hn'
    · -- the byte is the string's, and the text goes on behind it
      rw [if_neg hc]
      have hbuf' : buf = pre ++ ((str ++ [c]) ++ (text ++ zeros (k + 2))) := by
        rw [hbuf, List.append_assoc]
        rfl
      have hstr' : 0 ∉ str ++ [c] := by
        rw [List.mem_append, List.mem_singleton, not_or]
        exact ⟨hstr, fun h => hc h.symm⟩
      have hn' : (str ++ [c]).length + text.length < n := by
        rw [List.length_append, List.length_singleton]
        omega
      exact ih hbuf' hmsg hstr' hs hn'

end Scanning

/-- The scan of every datagram ends in the buffer, at pointers to what it met. -/
theorem scanKeys_strings {datagram : List UInt8} (hlen : datagram.length ≤ UEVENT_MSG_LEN) :
    ∃ s, scanKeys (ueventBuf datagram) = some (.ok s) ∧
      Seen (ueventBuf datagram) (eventStrings datagram) s := by
  have hbuf : ueventBuf datagram =
      [] ++ ([] ++ (datagram ++ zeros (UEVENT_MSG_LEN - datagram.length + 2))) := by
    rw [ueventBuf, List.nil_append, List.nil_append, Nat.sub_add_comm hlen]
  have hstart : Seen (ueventBuf datagram) [] ⟨0, none, none, none⟩ := ⟨.none, .none, .none⟩
  have hlen' : datagram.length ≤ (ueventBuf datagram).length := by
    rw [ueventBuf, List.length_append]
    exact Nat.le_add_right _ _
  have hn : ([] : List UInt8).length + datagram.length < (ueventBuf datagram).length + 1 := by
    rw [List.length_nil]
    omega
  obtain ⟨s, hrun, hseen⟩ := scan_run hbuf rfl List.not_mem_nil hstart hn
  exact ⟨s, by rw [scanKeys, hrun], hseen⟩

/-! ## The event behind the scan -/

section Dispatch
variable {buf : List UInt8} {strings : List (List UInt8)} {s : Scan} {long : Nat}

/-- A pointer to a value, of a scan that met one. -/
theorem pointer_cases {p : Option Nat} {v : Option (List UInt8)}
    (h : Option.Rel (StringAt buf) p v) :
    (p = none ∧ v = none) ∨ ∃ a str, p = some a ∧ v = some str ∧ StringAt buf a str := by
  cases h with
  | none => exact .inl ⟨rfl, rfl⟩
  | some h => exact .inr ⟨_, _, rfl, rfl, h⟩

theorem sdioEvent_returns (hs : Seen buf strings s) :
    (∃ r, sdioEvent long buf s = .ok r) ↔
      ∃ sdioId, valueOf keySdioId strings = some sdioId ∧
        ∀ subid, afterLast chColon sdioId = some subid → subid.length + 1 ≤ sdioDeviceIdSize := by
  rcases pointer_cases hs.sdioId with ⟨hp, hv⟩ | ⟨p, sdioId, hp, hv, hat⟩
  · simp [sdioEvent, present, hp, hv]
  · simp only [sdioEvent, present, hp, hv, ok_bind, hat.strAt, Except.mapError, Option.some.injEq,
      exists_eq_left']
    cases afterLast chColon sdioId with
    | none => simp
    | some subid =>
      simp only [Option.some.injEq, forall_eq']
      split
      · next hlong => exact iff_of_false (error_not_ok _) (Nat.not_le.mpr hlong)
      · next hshort => exact iff_of_true ⟨_, rfl⟩ (Nat.not_lt.mp hshort)

theorem usbEvent_returns (hs : Seen buf strings s) :
    (∃ r, usbEvent long buf s = .ok r) ↔ ∃ product, valueOf keyProduct strings = some product := by
  rcases pointer_cases hs.usbProduct with ⟨hp, hv⟩ | ⟨p, product, hp, hv, hat⟩
  · simp [usbEvent, present, hp, hv]
  · simp [usbEvent, present, hp, hv, hat.strAt, Except.mapError]

theorem dispatch_returns (hs : Seen buf strings s) :
    (∃ r, dispatch long buf s = .ok r) ↔
      ∃ subsystem, valueOf keySubsystem strings = some subsystem ∧
        if (ascii "sdio").isPrefixOf subsystem then ∃ r, sdioEvent long buf s = .ok r
        else if (ascii "usb").isPrefixOf subsystem then ∃ r, usbEvent long buf s = .ok r
        else True := by
  rcases pointer_cases hs.subsystem with ⟨hp, hv⟩ | ⟨p, subsystem, hp, hv, hat⟩
  · simp [dispatch, present, hp, hv]
  · have hsdio := hat.strncmpAt (show 0 ∉ ascii "sdio" by decide)
    have husb := hat.strncmpAt (show 0 ∉ ascii "usb" by decide)
    simp only [dispatch, present, hp, hv, ok_bind, hsdio, husb, Except.mapError,
      Option.some.injEq, exists_eq_left']
    split
    · rfl
    · split
      · rfl
      · simp

end Dispatch

/-- No datagram takes the scan out of the buffer, and what follows calls its string functions on
strings and copies what fits, where the event is complete, and only there. -/
theorem parse_total_iff {long : Nat} {datagram : List UInt8}
    (hlen : datagram.length ≤ UEVENT_MSG_LEN) :
    (∃ r, parseUevent long (ueventBuf datagram) = some (.ok r)) ↔ Complete datagram := by
  obtain ⟨s, hscan, hseen⟩ := scanKeys_strings hlen
  have hparse : parseUevent long (ueventBuf datagram) =
      some (dispatch long (ueventBuf datagram) s) := by
    rw [parseUevent, hscan]
    rfl
  have hsome : (∃ r, parseUevent long (ueventBuf datagram) = some (.ok r)) ↔
      ∃ r, dispatch long (ueventBuf datagram) s = .ok r := by
    simp only [hparse, Option.some.injEq]
  rw [hsome, dispatch_returns hseen, Complete]
  simp only [sdioEvent_returns hseen, usbEvent_returns hseen]

/-- The event of a usb adapter: its product is `0bda/8179/0`. -/
def usbDatagram : List UInt8 :=
  ascii "add@/devices" ++ 0 :: ascii "SUBSYSTEM=usb" ++ 0 :: ascii "PRODUCT=0bda/8179/0" ++ [0]

theorem parse_total_usb : ∃ r, parseUevent 32 (ueventBuf usbDatagram) = some (.ok r) :=
  (parse_total_iff (by decide)).mpr ⟨ascii "usb", by decide, ascii "0bda/8179/0", by decide⟩

/-- An sdio event with ten bytes behind the colon. -/
def sdioDatagram : List UInt8 :=
  ascii "SUBSYSTEM=sdio" ++ 0 :: ascii "SDIO_ID=024C:0123456789" ++ [0]

/-- An event without a subsystem is compared at NULL, and a long sdio id is copied over the end of
its ten bytes. -/
theorem parse_untotal :
    parseUevent 32 (ueventBuf (ascii "add@/devices")) = some (.error .missing) ∧
      parseUevent 32 (ueventBuf sdioDatagram) = some (.error (.overflow 11)) := by
  decide +kernel

end Lichee.Wifitester

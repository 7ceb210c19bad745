import Lichee.Core.TestCase
import Lichee.Script.Fetch
import Lichee.Script.Parser
import Mathlib.Logic.Function.Basic

/- `parse_testcase` (core.c): the loop that fills the test table from the script and counts
   the automatic and the manual testcases. An entry is written field by field into the
   slot `info[j]`, and `j` moves on only at the end of the body, so what a `continue`
   leaves in the slot is there for the next section.

   The body asks the script for five keys under the section's name. `keysOf` gathers what
   it may be told, and `takeKeys` is the body on what it was told: the loop is the fold of
   `takeKeys` over the sections (`parseTestcase_foldl`). The allocations and the shared
   memory segment are taken to succeed. -/
namespace Lichee.Core
open Base Script

/-- `strncpy(dst, src, n)` into an array that goes on behind the `n` bytes. -/
def strncpyInto (dst src : List UInt8) (n : Nat) : List UInt8 := strncpy src n ++ dst.drop n

/-- The `int` in the first word of a value. -/
def intAt (value : List UInt8) : Int := toInt ((word32 value).getD 0)

/-- An entry of the zeroed array. -/
def zeroInfo : TestcaseBaseInfo := ⟨zeros 32, zeros 68, 0, zeros 20, 0, 0, 0⟩

/-- The array `info`, by index, with `j` and the two counters. -/
structure Parsing where
  info : Nat → TestcaseBaseInfo
  j : Nat
  totalTestcasesAuto : Nat
  totalTestcasesManual : Nat

/-- What the body asks `script_fetch` for: a key and a count of words. -/
abbrev Fetcher := List UInt8 → Nat → Option Fetched

/-- An assignment to fields of `info[j]`. -/
def Parsing.write (p : Parsing) (f : TestcaseBaseInfo → TestcaseBaseInfo) : Parsing :=
  { p with info := Function.update p.info p.j (f (p.info p.j)) }

/-- The end of the body: the run type, and `j++`. -/
def parseRunType (fetch : Fetcher) (p : Parsing) : Option Parsing := do
  let run_type ← fetch (ascii "run_type") 1
  let p := if run_type.ret = 0 then p.write fun e => { e with runType := intAt run_type.value }
    else p
  some { p with j := p.j + 1 }

/-- The category, with the second `continue`. -/
def parseCategory (fetch : Fetcher) (mainkey_name : List UInt8) (p : Parsing) :
    Option Parsing := do
  let category ← fetch (ascii "category") 1
  if category.ret = 0 then
    let p := p.write fun e => { e with category := intAt category.value }
    if intAt category.value = 0 then
      parseRunType fetch { p with totalTestcasesAuto := p.totalTestcasesAuto + 1 }
    else if strcmp0 mainkey_name (ascii "tp") then some p
    else parseRunType fetch { p with totalTestcasesManual := p.totalTestcasesManual + 1 }
  else parseRunType fetch p

/-- `if (display_name[0] && activated == 1)` -/
def parseEntry (fetch : Fetcher) (mainkey_name display_name activated : List UInt8)
    (p : Parsing) : Option Parsing := do
  let p := p.write fun e => { e with
    name := strncpyInto e.name mainkey_name 32
    displayName := strncpyInto e.displayName display_name 64
    activated := intAt activated }
  let binary ← fetch (ascii "program") 4
  let p := if binary.ret = 0 then
      p.write fun e => { e with binary := strncpyInto e.binary binary.value 16 }
    else p
  parseCategory fetch mainkey_name (p.write fun e => { e with id := p.j })

/-- The body of the loop, for a section of the name `mainkey_name`. -/
def parseSection (fetch : Fetcher) (mainkey_name : List UInt8) (p : Parsing) :
    Option Parsing := do
  let display_name ← fetch (ascii "display_name") 16
  if display_name.ret ≠ 0 then some p
  else
    let activated ← fetch (ascii "activated") 1
    if activated.ret ≠ 0 then some p
    else if display_name.value.headD 0 ≠ 0 ∧ intAt activated.value = 1 then
      parseEntry fetch mainkey_name display_name.value activated.value p
    else some p

/-- The sections `i`, `i + 1`, ..., `n` of them. -/
def parseFrom (s : Attached) : Nat → Nat → Parsing → Option Parsing
  | 0, _, p => some p
  | n + 1, i, p => do
    let mainkey_name ← scriptMainkeyName s i
    let p ← parseSection (scriptFetch s mainkey_name) mainkey_name p
    parseFrom s n (i + 1) p

/-- `memset(info, 0, ...)` -/
def initParsing : Parsing := ⟨fun _ => zeroInfo, 0, 0, 0⟩

/-- `parse_testcase`: `none` where a read leaves the image. -/
def parseTestcase (s : Attached) : Option Parsing :=
  parseFrom s (scriptMainkeyCnt s).toNat 0 initParsing

/-- `base_info`, copied from the first `total_testcases` slots. -/
def Parsing.table (p : Parsing) : List TestcaseBaseInfo := (List.range p.j).map p.info

/-! ## The body on what the script says -/

/-- The keys of a section, as far as they are found. -/
structure SectionKeys where
  name : List UInt8
  displayName : Option (List UInt8)
  activated : Option Int
  program : Option (List UInt8)
  category : Option Int
  runType : Option Int
  deriving DecidableEq, Repr

/-- The value of a fetch that found its key. -/
def found : Option Fetched → Option (List UInt8)
  | some f => if f.ret = 0 then some f.value else none
  | none => none

def keysOf (fetch : Fetcher) (name : List UInt8) : SectionKeys where
  name := name
  displayName := found (fetch (ascii "display_name") 16)
  activated := (found (fetch (ascii "activated") 1)).map intAt
  program := found (fetch (ascii "program") 4)
  category := (found (fetch (ascii "category") 1)).map intAt
  runType := (found (fetch (ascii "run_type") 1)).map intAt

namespace SectionKeys

/-- `display_name[0] && activated == 1` -/
def active (k : SectionKeys) : Bool :=
  match k.displayName, k.activated with
  | some d, some a => d.headD 0 != 0 && a == 1
  | _, _ => false

/-- `!strcmp(mainkey_name, "tp")` -/
def isTp (k : SectionKeys) : Bool := strcmp0 k.name (ascii "tp")

/-- The section has a category other than 0. -/
def manual (k : SectionKeys) : Bool :=
  match k.category with
  | some c => c != 0
  | none => false

/-- The section the second `continue` leaves in its slot. -/
def abandoned (k : SectionKeys) : Bool := k.active && k.manual && k.isTp

/-- A section with an entry of its own. -/
def contributes (k : SectionKeys) : Bool := k.active && !k.abandoned

/-- The slot `e`, of index `j`, when the body is through with it. -/
def fill (k : SectionKeys) (e : TestcaseBaseInfo) (j : Nat) : TestcaseBaseInfo where
  name := strncpyInto e.name k.name 32
  displayName := strncpyInto e.displayName (k.displayName.getD []) 64
  activated := k.activated.getD 0
  binary := match k.program with
    | some b => strncpyInto e.binary b 16
    | none => e.binary
  id := j
  category := k.category.getD e.category
  runType := if k.abandoned then e.runType else k.runType.getD e.runType

end SectionKeys

/-- The body of the loop on the keys of a section. -/
def takeKeys (p : Parsing) (k : SectionKeys) : Parsing :=
  if k.active then
    let info := Function.update p.info p.j (k.fill (p.info p.j) p.j)
    if k.abandoned then { p with info := info }
    else
      ⟨info, p.j + 1, p.totalTestcasesAuto + (if k.category = some 0 then 1 else 0),
        p.totalTestcasesManual + (if k.manual then 1 else 0)⟩
  else p

theorem takeKeys_inactive {k : SectionKeys} (h : k.active = false) (p : Parsing) :
    takeKeys p k = p := by
  simp [takeKeys, h]

theorem takeKeys_abandoned {k : SectionKeys} (h : k.active = true) (h' : k.abandoned = true)
    (p : Parsing) : takeKeys p k =
      { p with info := Function.update p.info p.j (k.fill (p.info p.j) p.j) } := by
  simp [takeKeys, h, h']

theorem takeKeys_entry {k : SectionKeys} (h : k.active = true) (h' : k.abandoned = false)
    (p : Parsing) : takeKeys p k =
      ⟨Function.update p.info p.j (k.fill (p.info p.j) p.j), p.j + 1,
        p.totalTestcasesAuto + (if k.category = some 0 then 1 else 0),
        p.totalTestcasesManual + (if k.manual then 1 else 0)⟩ := by
  simp [takeKeys, h, h']

theorem tp_of_abandoned {k : SectionKeys} (h : k.abandoned = true) : k.isTp = true := by
  rw [SectionKeys.abandoned, Bool.and_eq_true] at h
  exact h.2

theorem category_of_abandoned {k : SectionKeys} (h : k.abandoned = true) :
    ∃ c, k.category = some c ∧ c ≠ 0 := by
  rw [SectionKeys.abandoned, Bool.and_eq_true, Bool.and_eq_true] at h
  have hman := h.1.2
  rw [SectionKeys.manual] at hman
  cases hc : k.category with
  | none => rw [hc] at hman; cases hman
  | some c =>
    rw [hc] at hman
    exact ⟨c, rfl, by simpa using hman⟩

theorem write_write (p : Parsing) (f g : TestcaseBaseInfo → TestcaseBaseInfo) :
    (p.write f).write g = p.write fun e => g (f e) := by
  simp only [Parsing.write, Function.update_self, Function.update_idem]

theorem found_of_ret {f : Option Fetched} {r : Fetched} (hf : f = some r) (hr : r.ret = 0) :
    found f = some r.value := by
  rw [hf, found, if_pos hr]

theorem found_of_not_ret {f : Option Fetched} {r : Fetched} (hf : f = some r) (hr : r.ret ≠ 0) :
    found f = none := by
  rw [hf, found, if_neg hr]

theorem write_self (p : Parsing) : (p.write fun e => e) = p := by
  simp only [Parsing.write, Function.update_eq_self]

/-- A key that was not found leaves its field alone. -/
theorem write_found {f : Option Fetched} {r : Fetched} (hf : f = some r) (p : Parsing)
    (g : List UInt8 → TestcaseBaseInfo → TestcaseBaseInfo) :
    (if r.ret = 0 then p.write (g r.value) else p) =
      p.write fun e => match found f with
        | some value => g value e
        | none => e := by
  by_cases hr : r.ret = 0
  · rw [if_pos hr, found_of_ret hf hr]
  · rw [if_neg hr, found_of_not_ret hf hr, write_self]

theorem parseRunType_eq {fetch : Fetcher} {p p' : Parsing} (h : parseRunType fetch p = some p') :
    p' = { p.write fun e => { e with
      runType := ((found (fetch (ascii "run_type") 1)).map intAt).getD e.runType } with
      j := p.j + 1 } := by
  obtain ⟨r, hr, h⟩ := Option.bind_eq_some_iff.mp h
  cases h
  have := write_found hr p fun value e => { e with runType := intAt value }
  rw [this]
  cases found (fetch (ascii "run_type") 1) <;> rfl

theorem manual_of_found {k : SectionKeys} {c : Int} (h : k.category = some c) :
    k.manual = (c != 0) := by
  rw [SectionKeys.manual, h]

/-- The part of the body from the category on. -/
theorem parseCategory_eq {fetch : Fetcher} {name : List UInt8} {p p' : Parsing}
    (h : parseCategory fetch name p = some p') {k : SectionKeys} (hk : k = keysOf fetch name) :
    p' = if k.manual && k.isTp then
        p.write fun e => { e with category := k.category.getD e.category }
      else { p.write fun e => { e with
          category := k.category.getD e.category, runType := k.runType.getD e.runType } with
        j := p.j + 1
        totalTestcasesAuto := p.totalTestcasesAuto + (if k.category = some 0 then 1 else 0)
        totalTestcasesManual := p.totalTestcasesManual + (if k.manual then 1 else 0) } := by
  obtain ⟨c, hc, h⟩ := Option.bind_eq_some_iff.mp h
  have hrun : k.runType = (found (fetch (ascii "run_type") 1)).map intAt := by rw [hk]; rfl
  have htp : k.isTp = strcmp0 name (ascii "tp") := by rw [hk]; rfl
  by_cases hret : c.ret = 0
  · have hcat : k.category = some (intAt c.value) := by
      rw [hk, keysOf, found_of_ret hc hret]
      rfl
    rw [if_pos hret] at h
    by_cases h0 : intAt c.value = 0
    · -- counted for the automatic list
      rw [if_pos h0] at h
      have hman : k.manual = false := by rw [manual_of_found hcat, h0]; rfl
      rw [parseRunType_eq h, ← hrun]
      simp [hman, hcat, h0, Parsing.write]
    · rw [if_neg h0] at h
      have hman : k.manual = true := by rw [manual_of_found hcat]; simpa using h0
      by_cases hname : strcmp0 name (ascii "tp") = true
      · -- the `continue` that leaves the slot half filled
        rw [if_pos hname] at h
        cases h
        simp [hman, htp, hname, hcat]
      · rw [if_neg hname] at h
        rw [parseRunType_eq h, ← hrun]
        simp [hman, htp, hname, hcat, h0, Parsing.write]
  · -- without a category neither counter moves
    have hcat : k.category = none := by
      rw [hk, keysOf, found_of_not_ret hc hret]
      rfl
    have hman : k.manual = false := by rw [SectionKeys.manual, hcat]
    rw [if_neg hret] at h
    rw [parseRunType_eq h, ← hrun]
    simp [hman, hcat, Parsing.write]

/-- The body for a section with an entry. -/
theorem parseEntry_eq {fetch : Fetcher} {name d a : List UInt8} {p p' : Parsing}
    (h : parseEntry fetch name d a p = some p') {k : SectionKeys} (hk : k = keysOf fetch name)
    (hd : k.displayName = some d) (ha : k.activated = some (intAt a)) (hact : k.active = true) :
    p' = takeKeys p k := by
  obtain ⟨b, hb, h⟩ := Option.bind_eq_some_iff.mp h
  have hprog : k.program = found (fetch (ascii "program") 4) := by rw [hk]; rfl
  have hname : k.name = name := by rw [hk]; rfl
  rw [write_found hb _ fun value e => { e with binary := strncpyInto e.binary value 16 },
    ← hprog, write_write] at h
  have hcat := parseCategory_eq h hk
  rw [hcat]
  by_cases hab : (k.manual && k.isTp) = true
  · have habandoned : k.abandoned = true := by
      rw [SectionKeys.abandoned, hact, Bool.true_and]
      exact hab
    rw [if_pos hab]
    cases hp : k.program <;>
      simp [takeKeys, hact, habandoned, Parsing.write, SectionKeys.fill, hd, ha, hname, hp]
  · have habandoned : k.abandoned = false := by
      rw [SectionKeys.abandoned, hact, Bool.true_and]
      simpa using hab
    rw [if_neg hab]
    cases hp : k.program <;>
      simp [takeKeys, hact, habandoned, Parsing.write, SectionKeys.fill, hd, ha, hname, hp]

/-- The body does what its keys say. -/
theorem parseSection_keys {fetch : Fetcher} {name : List UInt8} {p p' : Parsing}
    (h : parseSection fetch name p = some p') : p' = takeKeys p (keysOf fetch name) := by
  obtain ⟨d, hd, h⟩ := Option.bind_eq_some_iff.mp h
  -- the first three ways to leave the body write nothing
  have hinactive : (keysOf fetch name).active = false → takeKeys p (keysOf fetch name) = p :=
    fun hact => takeKeys_inactive hact p
  by_cases hdret : d.ret = 0
  · rw [if_neg (not_not.mpr hdret)] at h
    obtain ⟨a, ha, h⟩ := Option.bind_eq_some_iff.mp h
    by_cases haret : a.ret = 0
    · rw [if_neg (not_not.mpr haret)] at h
      have hfd := found_of_ret hd hdret
      have hfa := found_of_ret ha haret
      by_cases hact : d.value.headD 0 ≠ 0 ∧ intAt a.value = 1
      · rw [if_pos hact] at h
        apply parseEntry_eq h rfl hfd (by rw [keysOf, hfa]; rfl)
        simpa [SectionKeys.active, keysOf, hfd, hfa] using hact
      · rw [if_neg hact] at h
        cases h
        refine (hinactive ?_).symm
        simpa [SectionKeys.active, keysOf, hfd, hfa] using hact
    · rw [if_pos haret] at h
      cases h
      refine (hinactive ?_).symm
      simp [SectionKeys.active, keysOf, found_of_not_ret ha haret]
  · rw [if_pos hdret] at h
    cases h
    refine (hinactive ?_).symm
    simp [SectionKeys.active, keysOf, found_of_not_ret hd hdret]

/-! ## The loop -/

/-- The name of section `i`, as `script_mainkey_name` gives it. -/
def nameAt (s : Attached) (i : Nat) : List UInt8 := (scriptMainkeyName s i).getD []

/-- What the script says under the name of section `i`. -/
def keysAt (s : Attached) (i : Nat) : SectionKeys :=
  keysOf (scriptFetch s (nameAt s i)) (nameAt s i)

/-- What it says of each section, in script order. -/
def sections (s : Attached) : List SectionKeys :=
  (List.range (scriptMainkeyCnt s).toNat).map (keysAt s)

theorem parseFrom_foldl {s : Attached} {n i : Nat} {p p' : Parsing}
    (h : parseFrom s n i p = some p') :
    p' = ((List.range' i n).map (keysAt s)).foldl takeKeys p ∧
      ∀ m, i ≤ m → m < i + n → (scriptMainkeyName s m).isSome = true := by
  induction n generalizing i p with
  | zero =>
    cases h
    exact ⟨rfl, by omega⟩
  | succ n ih =>
    obtain ⟨name, hname, h⟩ := Option.bind_eq_some_iff.mp h
    obtain ⟨q, hq, h⟩ := Option.bind_eq_some_iff.mp h
    obtain ⟨hfold, hnames⟩ := ih h
    have hat : nameAt s i = name := by rw [nameAt, hname]; rfl
    refine ⟨?_, ?_⟩
    · rw [hfold, parseSection_keys hq, List.range'_succ, List.map_cons, List.foldl_cons, keysAt,
        hat]
    · intro m him hm
      by_cases hmi : m = i
      · rw [hmi, hname]
        rfl
      · exact hnames m (by omega) (by omega)

/-- The loop is the fold of its body over the sections. -/
theorem parseTestcase_foldl {s : Attached} {p : Parsing} (h : parseTestcase s = some p) :
    p = (sections s).foldl takeKeys initParsing := by
  rw [(parseFrom_foldl h).1, sections, List.range_eq_range']

/-- It reads the name of every section. -/
theorem names_of_parse {s : Attached} {p : Parsing} (h : parseTestcase s = some p) {m : Nat}
    (hm : m < (scriptMainkeyCnt s).toNat) : (scriptMainkeyName s m).isSome = true :=
  (parseFrom_foldl h).2 m (by omega) (by omega)

/-- Every key is answered, found or not: no read leaves the image. -/
def Answers (fetch : Fetcher) : Prop := ∀ sub count, 1 ≤ count → ∃ f, fetch sub count = some f

theorem parseRunType_total {fetch : Fetcher} (h : Answers fetch) (p : Parsing) :
    ∃ p', parseRunType fetch p = some p' := by
  obtain ⟨r, hr⟩ := h (ascii "run_type") 1 (le_refl 1)
  rw [parseRunType, hr]
  exact ⟨_, rfl⟩

theorem parseCategory_total {fetch : Fetcher} (h : Answers fetch) (name : List UInt8)
    (p : Parsing) : ∃ p', parseCategory fetch name p = some p' := by
  obtain ⟨c, hc⟩ := h (ascii "category") 1 (le_refl 1)
  rw [parseCategory, hc, Option.bind_eq_bind, Option.bind_some]
  by_cases hret : c.ret = 0
  · rw [if_pos hret]
    by_cases h0 : intAt c.value = 0
    · rw [if_pos h0]
      exact parseRunType_total h _
    · rw [if_neg h0]
      by_cases htp : strcmp0 name (ascii "tp") = true
      · rw [if_pos htp]
        exact ⟨_, rfl⟩
      · rw [if_neg htp]
        exact parseRunType_total h _
  · rw [if_neg hret]
    exact parseRunType_total h p

theorem parseSection_total {fetch : Fetcher} (h : Answers fetch) (name : List UInt8)
    (p : Parsing) : ∃ p', parseSection fetch name p = some p' := by
  obtain ⟨d, hd⟩ := h (ascii "display_name") 16 (by omega)
  obtain ⟨a, ha⟩ := h (ascii "activated") 1 (le_refl 1)
  obtain ⟨b, hb⟩ := h (ascii "program") 4 (by omega)
  rw [parseSection, hd, ha, Option.bind_eq_bind, Option.bind_some]
  by_cases hdret : d.ret ≠ 0
  · rw [if_pos hdret]
    exact ⟨p, rfl⟩
  · rw [if_neg hdret, Option.bind_some]
    by_cases haret : a.ret ≠ 0
    · rw [if_pos haret]
      exact ⟨p, rfl⟩
    · rw [if_neg haret]
      by_cases hact : d.value.headD 0 ≠ 0 ∧ intAt a.value = 1
      · rw [if_pos hact, parseEntry, hb, Option.bind_eq_bind, Option.bind_some]
        exact parseCategory_total h name _
      · rw [if_neg hact]
        exact ⟨p, rfl⟩

/-- On a script that answers under every section name the loop comes to its end. -/
theorem parseFrom_total {s : Attached} {n i : Nat}
    (hname : ∀ m, i ≤ m → m < i + n →
      ∃ name, scriptMainkeyName s m = some name ∧ Answers (scriptFetch s name)) (p : Parsing) :
    ∃ p', parseFrom s n i p = some p' := by
  induction n generalizing i p with
  | zero => exact ⟨p, rfl⟩
  | succ n ih =>
    obtain ⟨name, hn, hans⟩ := hname i (le_refl i) (by omega)
    obtain ⟨q, hq⟩ := parseSection_total hans name p
    rw [parseFrom, hn, Option.bind_eq_bind, Option.bind_some, hq, Option.bind_eq_bind,
      Option.bind_some]
    exact ih (fun m him hm => hname m (by omega) (by omega)) q

/-! ## The table -/

/-- The entries the sections make from index `j` on, with `e` in the slot. -/
def runKeys : List SectionKeys → TestcaseBaseInfo → Nat → List TestcaseBaseInfo
  | [], _, _ => []
  | k :: ks, e, j =>
    if k.active then
      if k.abandoned then runKeys ks (k.fill e j) j
      else k.fill e j :: runKeys ks zeroInfo (j + 1)
    else runKeys ks e j

/-- The slots below `j` are what they were. -/
theorem table_update (info : Nat → TestcaseBaseInfo) (e : TestcaseBaseInfo) (j : Nat) :
    (List.range j).map (Function.update info j e) = (List.range j).map info := by
  refine List.map_congr_left fun i hi => Function.update_of_ne ?_ _ _
  have := List.mem_range.mp hi
  omega

/-- The slots behind `j` are still zero. -/
def Fresh (p : Parsing) : Prop := ∀ i, p.j < i → p.info i = zeroInfo

theorem fresh_takeKeys {p : Parsing} (hp : Fresh p) (k : SectionKeys) :
    Fresh (takeKeys p k) := by
  cases hact : k.active with
  | false =>
    rw [takeKeys_inactive hact]
    exact hp
  | true =>
    have hslot : ∀ i, p.j < i →
        Function.update p.info p.j (k.fill (p.info p.j) p.j) i = zeroInfo := by
      intro i hi
      exact (Function.update_of_ne (Nat.ne_of_gt hi) _ _).trans (hp i hi)
    cases hab : k.abandoned with
    | true =>
      rw [takeKeys_abandoned hact hab]
      exact hslot
    | false =>
      rw [takeKeys_entry hact hab]
      intro i hi
      exact hslot i (Nat.lt_of_succ_lt hi)

/-- The loop adds to the table what `runKeys` makes of the slot at hand. -/
theorem table_foldl (ks : List SectionKeys) {p : Parsing} (hp : Fresh p) :
    (ks.foldl takeKeys p).table = p.table ++ runKeys ks (p.info p.j) p.j := by
  induction ks generalizing p with
  | nil => exact (List.append_nil _).symm
  | cons k ks ih =>
    have hnext := fresh_takeKeys hp k
    rw [List.foldl_cons, ih hnext, runKeys]
    cases hact : k.active with
    | false =>
      rw [takeKeys_inactive hact]
      rfl
    | true =>
      cases hab : k.abandoned with
      | true =>
        rw [takeKeys_abandoned hact hab]
        simp only [Parsing.table, table_update, Function.update_self, if_true]
      | false =>
        -- the next slot has not been written to
        have hslot : Function.update p.info p.j (k.fill (p.info p.j) p.j) (p.j + 1) = zeroInfo :=
          (Function.update_of_ne (by omega) _ _).trans (hp _ (by omega))
        rw [takeKeys_entry hact hab]
        simp only [Parsing.table, List.range_succ, List.map_append, table_update, hslot,
          List.map_cons, List.map_nil, Function.update_self, List.append_assoc,
          List.singleton_append, if_true, Bool.false_eq_true, if_false]

/-- The table of a script. -/
theorem parseTestcase_table {s : Attached} {p : Parsing} (h : parseTestcase s = some p) :
    p.table = runKeys (sections s) zeroInfo 0 := by
  rw [parseTestcase_foldl h, table_foldl (sections s) (p := initParsing) fun _ _ => rfl]
  rfl

/-- Every entry has its index for an id, whatever else its slot held. -/
theorem runKeys_ids (ks : List SectionKeys) (e : TestcaseBaseInfo) (j i : Nat)
    (h : i < (runKeys ks e j).length) : (runKeys ks e j)[i].id = (j + i : Nat) := by
  induction ks generalizing e j i with
  | nil => cases h
  | cons k ks ih =>
    cases hact : k.active with
    | false =>
      have heq : runKeys (k :: ks) e j = runKeys ks e j := by simp [runKeys, hact]
      simp only [heq] at h ⊢
      exact ih e j i h
    | true =>
      cases hab : k.abandoned with
      | true =>
        have heq : runKeys (k :: ks) e j = runKeys ks (k.fill e j) j := by
          simp [runKeys, hact, hab]
        simp only [heq] at h ⊢
        exact ih _ j i h
      | false =>
        have heq : runKeys (k :: ks) e j = k.fill e j :: runKeys ks zeroInfo (j + 1) := by
          simp [runKeys, hact, hab]
        simp only [heq] at h ⊢
        cases i with
        | zero => rfl
        | succ i =>
          have := ih zeroInfo (j + 1) i (by simpa using h)
          rw [List.getElem_cons_succ, this]
          congr 1
          omega

theorem runKeys_length_le (ks : List SectionKeys) (e : TestcaseBaseInfo) (j : Nat) :
    (runKeys ks e j).length ≤ ks.length := by
  induction ks generalizing e j with
  | nil => exact le_refl _
  | cons k ks ih =>
    rw [runKeys]
    split
    · split
      · exact (ih _ _).trans (Nat.le_succ _)
      · simpa using ih zeroInfo (j + 1)
    · exact (ih _ _).trans (Nat.le_succ _)

/-- What `parse_testcase` leaves in shared memory is a test table. -/
theorem exists_testTable {s : Attached} {p : Parsing} (h : parseTestcase s = some p)
    (hcnt : scriptMainkeyCnt s < 2147483648) : ∃ T : TestTable, T.entries = p.table := by
  have hlen : p.table.length < 2147483648 := by
    rw [parseTestcase_table h]
    have hle := runKeys_length_le (sections s) zeroInfo 0
    have hsec : (sections s).length = (scriptMainkeyCnt s).toNat := by simp [sections]
    omega
  refine ⟨⟨p.table, ?_, hlen⟩, rfl⟩
  intro i hi
  simp only [parseTestcase_table h] at hi ⊢
  rw [runKeys_ids, Nat.zero_add]

/-! ## From the text on -/

/-- The script text `b` compiles, and core is attached to the image. -/
def Compiled (b : ScriptBuf) (s : Attached) : Prop :=
  ∃ img, Compiles b img ∧ initScript img = some s

/-- Compile, attach and parse. -/
def parseText (lines : Nat) (b : ScriptBuf) : Option (Attached × Parsing) := do
  let r ← parseScript lines b
  let img ← r.toOption
  let s ← initScript img
  let p ← parseTestcase s
  some (s, p)

/-- A check that a text passes is passed by its image and its table. -/
theorem exists_of_parseText {lines : Nat} {b : ScriptBuf} {check : Attached × Parsing → Bool}
    (h : (parseText lines b).map check = some true) :
    ∃ s p, Compiled b s ∧ parseTestcase s = some p ∧ check (s, p) = true := by
  obtain ⟨q, hq, hcheck⟩ := Option.map_eq_some_iff.mp h
  obtain ⟨r, hr, hq⟩ := Option.bind_eq_some_iff.mp hq
  obtain ⟨img, himg, hq⟩ := Option.bind_eq_some_iff.mp hq
  obtain ⟨s, hs, hq⟩ := Option.bind_eq_some_iff.mp hq
  obtain ⟨p, hp, hq⟩ := Option.bind_eq_some_iff.mp hq
  cases hq
  have hok : r = .ok img := by
    cases r with
    | error e => cases himg
    | ok img' => cases himg; rfl
  rw [hok] at hr
  exact ⟨s, p, ⟨img, ⟨lines, hr⟩, hs⟩, hp, hcheck⟩

end Lichee.Core

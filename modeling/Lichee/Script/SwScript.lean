import Lichee.Script.Tables

/- The second reader of compiled scripts (package/sw-tools/src/sw_script.c), beside
   `script_fetch`. Both walk the same tables and stop at the first record with the names
   asked for, with two differences. The loop of `get_sub_key` steps to the next section only
   past a section of another name, so it never leaves the first section so named; and
   `script_get_str` copies as many bytes as the string has words. `sw_script_agrees_iff`: on every
   compiled image the two agree just where neither shows. -/
namespace Lichee.Script
open Base

/-! ## The readers -/

/-- The data type of a record. -/
def Entry.type (e : Entry) : UInt32 := e.snd >>> 16 &&& 0xffff

/-- The word count of a record. -/
def Entry.wordCount (e : Entry) : Nat := (e.snd &&& 0xffff).toNat

/-- The records `j`, `j + 1`, ... of a section, `n` of them: the address of the first one
whose name passes. -/
def subkeyFrom (img : List UInt8) (mainkey : Entry) (named : List UInt8 → Bool) :
    Nat → Nat → Option (Option Int)
  | 0, _ => some none
  | n + 1, j => do
    let subkey ← readEntry img (subkeyAddr mainkey j)
    if named subkey.name then some (some (subkeyAddr mainkey j))
    else subkeyFrom img mainkey named n (j + 1)

/-- The loop of `get_sub_key` with `mk` at section `i` and `n` iterations to go. A name of
at most 31 bytes ends before the field it is compared with does. -/
def getSubKeyFrom (img : List UInt8) (mainKey subKey : List UInt8) :
    Nat → Nat → Option (Option Int)
  | 0, _ => some none
  | n + 1, i => do
    let mk ← readEntry img (mainkeyAddr i)
    if strcmp0 mainKey mk.name then
      match ← subkeyFrom img mk (strcmp0 subKey ·) (toInt mk.fst).toNat 0 with
      | some sk => some (some sk)
      -- `mk` stays at this section
      | none => getSubKeyFrom img mainKey subKey n i
    else getSubKeyFrom img mainKey subKey n (i + 1)

/-- `get_sub_key`: the address of the record. -/
def getSubKey (img mainKey subKey : List UInt8) : Option (Option Int) := do
  let cnt ← read32 img 0
  getSubKeyFrom img mainKey subKey (toInt cnt).toNat 0

/-- `script_get_int`. -/
def scriptGetInt (img mainKey subKey : List UInt8) : Option Int := do
  match ← getSubKey img mainKey subKey with
  | none => some (-1)
  | some addr =>
    let sk ← readEntry img addr
    if sk.type = 1 then (read32 img (toInt (sk.fst <<< 2))).map toInt
    else some (-1)

/-- The bytes `memcpy` copies: none are read where none are asked for. -/
def copied (img : List UInt8) (n : Nat) (addr : Int) : Option (List UInt8) :=
  if n = 0 then some [] else readBytes img n addr

/-- `script_get_str`: what is in `buf` when it is returned. -/
def scriptGetStr (img mainKey subKey buf : List UInt8) : Option (Option (List UInt8)) := do
  match ← getSubKey img mainKey subKey with
  | none => some none
  | some addr =>
    let sk ← readEntry img addr
    if sk.type = 2 then
      let bytes ← copied img sk.wordCount (toInt (sk.fst <<< 2))
      if bytes.length ≤ buf.length then some (some (bytes ++ buf.drop bytes.length)) else none
    else some none

/-! ## The record `script_fetch` takes its value from -/

/-- The search of `script_fetch` over the sections `i`, `i + 1`, ..., `n` of them. -/
def recordFrom (img mainName subName : List UInt8) : Nat → Nat → Option (Option Int)
  | 0, _ => some none
  | n + 1, i => do
    let mainkey ← readEntry img (mainkeyAddr i)
    if strncmp0 mainkey.name mainName 31 then
      match ← subkeyFrom img mainkey (strncmp0 · subName 31) (toInt mainkey.fst).toNat 0 with
      | some subkey => some (some subkey)
      | none => recordFrom img mainName subName n (i + 1)
    else recordFrom img mainName subName n (i + 1)

def fetchedRecord (s : Attached) (mainName subName : List UInt8) : Option (Option Int) :=
  recordFrom s.scriptBuf mainName subName s.mainkeyCnt.toNat 0

/-- The value `script_fetch` reads from a record. -/
def recordValue (img : List UInt8) (count : Nat) (addr : Int) : Option (List UInt8) := do
  let subkey ← readEntry img addr
  fetchValue img subkey count

/-- What `script_fetch` returns, with the record it has found. -/
def fetchedFrom (img : List UInt8) (count : Nat) : Option Int → Option Fetched
  | none => some ⟨-1, fillValue [] count⟩
  | some addr => (recordValue img count addr).map (⟨0, ·⟩)

theorem searchSubkey_record (img : List UInt8) (mainkey : Entry) (sub : List UInt8)
    (count n j : Nat) :
    searchSubkey img mainkey.snd sub count n j =
      (subkeyFrom img mainkey (strncmp0 · sub 31) n j).bind fun r =>
        r.elim (some none) fun addr => (recordValue img count addr).map some := by
  induction n generalizing j with
  | zero => rfl
  | succ n ih =>
    rw [searchSubkey, subkeyFrom, ← subkeyAddr]
    cases he : readEntry img (subkeyAddr mainkey j) with
    | none => rfl
    | some subkey =>
      simp only [Option.bind_eq_bind, Option.bind_some]
      split
      · simp only [Option.bind_some, Option.elim_some, recordValue, he, Option.bind_eq_bind]
        cases fetchValue img subkey count <;> rfl
      · exact ih (j + 1)

theorem searchMainkey_record (img main sub : List UInt8) (count n i : Nat) :
    searchMainkey img main sub count n i =
      (recordFrom img main sub n i).bind (fetchedFrom img count) := by
  induction n generalizing i with
  | zero => rfl
  | succ n ih =>
    rw [searchMainkey, recordFrom]
    cases readEntry img (mainkeyAddr i) with
    | none => rfl
    | some mainkey =>
      simp only [Option.bind_eq_bind, Option.bind_some, searchSubkey_record]
      split
      · cases subkeyFrom img mainkey (strncmp0 · sub 31) (toInt mainkey.fst).toNat 0 with
        | none => rfl
        | some r =>
          cases r with
          | none => exact ih (i + 1)
          | some addr =>
            simp only [Option.bind_some, Option.elim_some, fetchedFrom]
            cases recordValue img count addr <;> rfl
      · exact ih (i + 1)

/-- **The value of `script_fetch` is that of its record.** -/
theorem scriptFetch_record (s : Attached) (main sub : List UInt8) (count : Nat) :
    scriptFetch s main sub count =
      (fetchedRecord s main sub).bind (fetchedFrom s.scriptBuf count) :=
  searchMainkey_record s.scriptBuf main sub count s.mainkeyCnt.toNat 0

/-! ## The tables of an image, in order -/

/-- A section as the readers see it: its name, and the keys of its records with their
addresses. -/
structure Listing where
  name : List UInt8
  keys : List (List UInt8 × Int)
  deriving DecidableEq, Repr

/-- The address of the first record so named. -/
def Listing.find (l : Listing) (sub : List UInt8) : Option Int :=
  (l.keys.find? (·.1 == cstr sub)).map (·.2)

def keysFrom (img : List UInt8) (mainkey : Entry) (n j : Nat) : List (List UInt8 × Int) :=
  (List.range' j n).filterMap fun j =>
    (readEntry img (subkeyAddr mainkey j)).map fun e => (cstr e.name, subkeyAddr mainkey j)

def listing (img : List UInt8) (mainkey : Entry) : Listing :=
  ⟨cstr mainkey.name, keysFrom img mainkey (toInt mainkey.fst).toNat 0⟩

def listingsFrom (img : List UInt8) (n i : Nat) : List Listing :=
  (List.range' i n).filterMap fun i => (readEntry img (mainkeyAddr i)).map (listing img)

/-- The sections of an image. -/
def directory (img : List UInt8) : List Listing :=
  match read32 img 0 with
  | none => []
  | some cnt => listingsFrom img (toInt cnt).toNat 0

/-- The record of the first section so named that has the key. -/
def firstRecord (main sub : List UInt8) (d : List Listing) : Option Int :=
  d.findSome? fun l => if l.name == cstr main then l.find sub else none

/-- The record of the first section so named, if that has the key. -/
def firstSectionRecord (main sub : List UInt8) (d : List Listing) : Option Int :=
  (d.find? (·.name == cstr main)).bind (·.find sub)

/-- The first section so named has the key, if any section so named has it. -/
def FirstHas (main sub : List UInt8) (d : List Listing) : Prop :=
  ∀ l, d.find? (·.name == cstr main) = some l →
    (∃ l' ∈ d, (l'.name == cstr main) = true ∧ (l'.find sub).isSome) → (l.find sub).isSome

/-! ## Names -/

theorem readBytes_take {img bytes : List UInt8} {m n : Nat} {addr : Int}
    (h : readBytes img m addr = some bytes) (hn : n ≤ m) :
    readBytes img n addr = some (bytes.take n) := by
  cases addr with
  | ofNat a =>
    simp only [readBytes, Option.ite_none_right_eq_some, Option.some.injEq] at h ⊢
    obtain ⟨hin, rfl⟩ := h
    exact ⟨by omega, by rw [List.take_take, Nat.min_eq_left hn]⟩
  | negSucc a => cases h

theorem readBytes_length {img bytes : List UInt8} {n : Nat} {addr : Int}
    (h : readBytes img n addr = some bytes) : bytes.length = n := by
  cases addr with
  | ofNat a =>
    simp only [readBytes, Option.ite_none_right_eq_some, Option.some.injEq] at h
    obtain ⟨hin, rfl⟩ := h
    rw [List.length_take, List.length_drop]
    omega
  | negSucc a => cases h

theorem readEntry_name {img : List UInt8} {addr : Int} {e : Entry}
    (h : readEntry img addr = some e) : e.name.length = 32 := by
  simp only [readEntry, Option.bind_eq_bind, Option.bind_eq_some_iff] at h
  obtain ⟨name, hname, fst, -, snd, -, h⟩ := h
  cases h
  exact readBytes_length hname

theorem cstr_length_lt {l : List UInt8} (h : 0 ∈ l) : (cstr l).length < l.length := by
  by_contra hge
  have hprefix : cstr l <+: l := List.takeWhile_prefix _
  have hall : cstr l = l := hprefix.eq_of_length_le (Nat.le_of_not_lt hge)
  rw [← hall] at h
  exact cstr_nul_free l h

/-- A name that ends inside its field is compared as a whole. -/
theorem strncmp0_field {name asked : List UInt8} (hlen : name.length = 32) (hnul : 0 ∈ name)
    (hasked : asked.length ≤ 31) : strncmp0 name asked 31 = (cstr name == cstr asked) := by
  have hname := cstr_length_lt hnul
  have hcstr := cstr_length_le asked
  rw [Bool.eq_iff_iff, strncmp0_iff (by omega) (by omega), beq_iff_eq]

theorem strcmp0_field (asked name : List UInt8) :
    strcmp0 asked name = (cstr name == cstr asked) := by
  rw [strcmp0, Bool.beq_comm]

/-! ## The walks -/

section Walk
variable {img : List UInt8} {mainkey : Entry} {main sub : List UInt8} {i : Nat}

theorem keysFrom_succ {n j : Nat} {e : Entry} (h : readEntry img (subkeyAddr mainkey j) = some e) :
    keysFrom img mainkey (n + 1) j =
      (cstr e.name, subkeyAddr mainkey j) :: keysFrom img mainkey n (j + 1) := by
  rw [keysFrom, List.range'_succ, List.filterMap_cons, h]
  rfl

theorem listingsFrom_succ {n : Nat} (h : readEntry img (mainkeyAddr i) = some mainkey) :
    listingsFrom img (n + 1) i = listing img mainkey :: listingsFrom img n (i + 1) := by
  rw [listingsFrom, List.range'_succ, List.filterMap_cons, h]
  rfl

/-- The search of a section finds the first key that is the one asked for. -/
theorem subkeyFrom_find {len : Nat} (named : List UInt8 → Bool)
    (h : ∀ j < len, ∃ subkey, readEntry img (subkeyAddr mainkey j) = some subkey ∧
      named subkey.name = (cstr subkey.name == cstr sub)) (n j : Nat) (hj : j + n ≤ len) :
    subkeyFrom img mainkey named n j =
      some (((keysFrom img mainkey n j).find? (·.1 == cstr sub)).map (·.2)) := by
  induction n generalizing j with
  | zero => rfl
  | succ n ih =>
    obtain ⟨subkey, hread, hnamed⟩ := h j (by omega)
    rw [subkeyFrom, hread, keysFrom_succ hread, List.find?_cons]
    simp only [Option.bind_eq_bind, Option.bind_some, hnamed]
    cases cstr subkey.name == cstr sub with
    | true => rfl
    | false => exact ih (j + 1) (by omega)

/-- `script_fetch` takes the first record with the two names. -/
theorem recordFrom_listings {cnt : Nat} (himg : Tabled img cnt) (hmain : main.length ≤ 31)
    (hsub : sub.length ≤ 31) (n i : Nat) (hi : i + n ≤ cnt) :
    recordFrom img main sub n i = some (firstRecord main sub (listingsFrom img n i)) := by
  induction n generalizing i with
  | zero => rfl
  | succ n ih =>
    obtain ⟨mk, hread, hnul, hkeys⟩ := himg.sections i (by omega)
    have hfind : subkeyFrom img mk (strncmp0 · sub 31) (toInt mk.fst).toNat 0 =
        some ((listing img mk).find sub) := by
      apply subkeyFrom_find _ _ _ _ (Nat.le_of_eq (Nat.zero_add _))
      intro j hj
      obtain ⟨subkey, hsk, hskn⟩ := hkeys j hj
      exact ⟨subkey, hsk, strncmp0_field (readEntry_name hsk) hskn hsub⟩
    have hrest := ih (i + 1) (by omega)
    rw [firstRecord] at hrest ⊢
    rw [recordFrom, hread, listingsFrom_succ hread, List.findSome?_cons]
    simp only [Option.bind_eq_bind, Option.bind_some, hfind, hrest,
      strncmp0_field (readEntry_name hread) hnul hmain,
      show (listing img mk).name = cstr mk.name from rfl]
    cases cstr mk.name == cstr main with
    | false => rfl
    | true => cases (listing img mk).find sub <;> rfl

/-- At a section that is so named and lacks the key, the loop of `get_sub_key` goes round on
the spot. -/
theorem getSubKeyFrom_stays (hread : readEntry img (mainkeyAddr i) = some mainkey)
    (hnamed : strcmp0 main mainkey.name = true)
    (hfind : subkeyFrom img mainkey (strcmp0 sub ·) (toInt mainkey.fst).toNat 0 = some none)
    (n : Nat) : getSubKeyFrom img main sub n i = some none := by
  induction n with
  | zero => rfl
  | succ n ih =>
    rw [getSubKeyFrom, hread]
    simp only [Option.bind_eq_bind, Option.bind_some, hnamed, hfind, if_true]
    exact ih

/-- `get_sub_key` looks into the first section so named. -/
theorem getSubKeyFrom_listings {cnt : Nat} (himg : Tabled img cnt) (n i : Nat)
    (hi : i + n ≤ cnt) :
    getSubKeyFrom img main sub n i = some (firstSectionRecord main sub (listingsFrom img n i)) := by
  induction n generalizing i with
  | zero => rfl
  | succ n ih =>
    obtain ⟨mk, hread, -, hkeys⟩ := himg.sections i (by omega)
    have hfind : subkeyFrom img mk (strcmp0 sub ·) (toInt mk.fst).toNat 0 =
        some ((listing img mk).find sub) := by
      apply subkeyFrom_find _ _ _ _ (Nat.le_of_eq (Nat.zero_add _))
      intro j hj
      obtain ⟨subkey, hsk, -⟩ := hkeys j hj
      exact ⟨subkey, hsk, strcmp0_field sub subkey.name⟩
    have hrest := ih (i + 1) (by omega)
    rw [firstSectionRecord] at hrest ⊢
    rw [listingsFrom_succ hread, List.find?_cons,
      show (listing img mk).name = cstr mk.name from rfl]
    cases hnamed : cstr mk.name == cstr main with
    | false =>
      rw [getSubKeyFrom, hread]
      simp only [Option.bind_eq_bind, Option.bind_some, strcmp0_field, hnamed, hrest]
      rfl
    | true =>
      have hmk : strcmp0 main mk.name = true := by rw [strcmp0_field, hnamed]
      show _ = some ((listing img mk).find sub)
      cases hkey : (listing img mk).find sub with
      | none => exact getSubKeyFrom_stays hread hmk (by rw [hfind, hkey]) (n + 1)
      | some sk =>
        rw [getSubKeyFrom, hread]
        simp only [Option.bind_eq_bind, Option.bind_some, hmk, hfind, hkey, if_true]

end Walk

/-- Looking into the first section so named is looking for the first record, unless only a
later section has the key. -/
theorem firstSectionRecord_eq_iff (main sub : List UInt8) (d : List Listing) :
    firstSectionRecord main sub d = firstRecord main sub d ↔ FirstHas main sub d := by
  induction d with
  | nil => simp [firstSectionRecord, firstRecord, FirstHas]
  | cons l d ih =>
    rw [firstSectionRecord, firstRecord] at ih ⊢
    rw [FirstHas, List.find?_cons, List.findSome?_cons]
    cases hname : l.name == cstr main with
    | false =>
      have hne : l.name ≠ cstr main := by simpa using hname
      simp only [Bool.false_eq_true, if_false]
      rw [ih, FirstHas]
      simp [hne]
    | true =>
      simp only [if_true, Option.bind_some]
      cases hkey : l.find sub with
      | some addr => simp [hkey]
      | none =>
        -- the section lacks the key, and the others must not have it either
        refine ⟨?_, ?_⟩
        · intro hnone l₀ hl₀ ⟨l', hl', hname', hhas⟩
          obtain rfl := Option.some.inj hl₀
          rcases List.mem_cons.mp hl' with rfl | hin
          · exact hhas
          · have := List.findSome?_eq_none_iff.mp hnone.symm l' hin
            rw [hname', if_pos rfl] at this
            rw [this] at hhas
            cases hhas
        · intro hfirst
          refine (List.findSome?_eq_none_iff.mpr fun l' hin => ?_).symm
          split
          · next hname' =>
            by_contra hne
            have hhas := hfirst l rfl ⟨l', List.mem_cons_of_mem _ hin, hname',
              Option.isSome_iff_ne_none.mpr hne⟩
            rw [hkey] at hhas
            cases hhas
          · rfl

/-! ## Where the two readers agree -/

/-- What two readers of one image owe each other for a section and a key: the same record, or
none; of an integer, the same integer; and of a string, the same string, in buffers it fits. -/
structure ReadersAgree (s : Attached) (main sub : List UInt8) : Prop where
  found : ∀ count f, scriptFetch s main sub count = some f →
    (f.ret = 0 ↔ ∃ addr, getSubKey s.scriptBuf main sub = some (some addr))
  record : ∃ r, fetchedRecord s main sub = some r ∧ getSubKey s.scriptBuf main sub = some r
  int : ∀ addr sk, fetchedRecord s main sub = some (some addr) →
    readEntry s.scriptBuf addr = some sk → sk.type = 1 →
      ∀ count f, 1 ≤ count → scriptFetch s main sub count = some f →
        ∃ w, word32 f.value = some w ∧ scriptGetInt s.scriptBuf main sub = some (toInt w)
  str : ∀ addr sk, fetchedRecord s main sub = some (some addr) →
    readEntry s.scriptBuf addr = some sk → sk.type = 2 →
      ∀ count size f, sk.wordCount ≤ count → sk.wordCount * 4 ≤ size →
        scriptFetch s main sub count = some f →
          ∃ buf, scriptGetStr s.scriptBuf main sub (zeros size) = some (some buf) ∧
            cstr buf = cstr f.value

/-- A string the names lead to has no more bytes than words. -/
def TextFits (img main sub : List UInt8) : Prop :=
  ∀ addr sk text, firstRecord main sub (directory img) = some addr →
    readEntry img addr = some sk → sk.type = 2 →
      readBytes img (sk.wordCount * 4) (toInt (sk.fst <<< 2)) = some text →
        (cstr text).length ≤ sk.wordCount

/-- Of a string that can be read, the first bytes can. -/
theorem copied_text {img text : List UInt8} {n : Nat} {addr : Int}
    (h : readBytes img (n * 4) addr = some text) : copied img n addr = some (text.take n) := by
  rw [copied]
  split
  · next h0 => rw [h0, List.take_zero]
  · exact readBytes_take h (by omega)

theorem cstr_take (l : List UInt8) (n : Nat) : cstr (l.take n) = (cstr l).take n := by
  induction l generalizing n with
  | nil => simp [cstr]
  | cons c l ih =>
    cases n with
    | zero => rfl
    | succ n =>
      by_cases hc : c = 0
      · simp [cstr, hc]
      · simpa [cstr, hc] using ih n

/-- A string is fetched as the words it has. -/
theorem fetchValue_string {img : List UInt8} {sk : Entry} {count : Nat} (htype : sk.type = 2)
    (hcount : sk.wordCount ≤ count) :
    fetchValue img sk count = if sk.wordCount = 0 then some (fillValue [] count) else
      (readBytes img (sk.wordCount * 4) (toInt (sk.fst <<< 2))).map (fillValue · count) := by
  have h1 : sk.snd >>> 16 &&& 0xffff ≠ 1 := by rw [← Entry.type, htype]; decide
  have h2 : sk.snd >>> 16 &&& 0xffff = 2 := htype
  rw [Entry.wordCount] at hcount ⊢
  simp only [fetchValue, if_neg h1, if_pos h2, Nat.min_eq_left hcount]
  split
  · rfl
  · cases readBytes img ((sk.snd &&& 0xffff).toNat * 4) (toInt (sk.fst <<< 2)) <;> rfl

section Agree
variable {img : List UInt8} {main sub : List UInt8} {cnt : Nat}

theorem getSubKey_directory (himg : Tabled img cnt) :
    getSubKey img main sub = some (firstSectionRecord main sub (directory img)) := by
  have hcnt : toInt (.ofNat cnt) = cnt := toInt_ofNat (by have := himg.count; omega)
  rw [getSubKey, directory, himg.head]
  simp only [Option.bind_eq_bind, Option.bind_some, hcnt]
  exact getSubKeyFrom_listings himg cnt 0 (by omega)

theorem fetchedRecord_directory (himg : Tabled img cnt) (hmain : main.length ≤ 31)
    (hsub : sub.length ≤ 31) :
    fetchedRecord ⟨img, cnt⟩ main sub = some (firstRecord main sub (directory img)) := by
  have hcnt : toInt (.ofNat cnt) = cnt := toInt_ofNat (by have := himg.count; omega)
  rw [fetchedRecord, directory, himg.head]
  simp only [hcnt]
  exact recordFrom_listings himg hmain hsub cnt 0 (by omega)

/-- `script_get_str` leaves what it copies in a buffer of NULs. -/
theorem scriptGetStr_copied {addr : Int} {sk : Entry} {bytes : List UInt8} {size : Nat}
    (hkey : getSubKey img main sub = some (some addr)) (hread : readEntry img addr = some sk)
    (htype : sk.type = 2)
    (hbytes : copied img sk.wordCount (toInt (sk.fst <<< 2)) = some bytes)
    (hsize : bytes.length ≤ size) :
    ∃ buf, scriptGetStr img main sub (zeros size) = some (some buf) ∧ cstr buf = cstr bytes := by
  refine ⟨bytes ++ (zeros size).drop bytes.length, ?_, ?_⟩
  · rw [scriptGetStr, hkey]
    simp only [Option.bind_eq_bind, Option.bind_some, hread, htype, if_true, hbytes]
    rw [if_pos (by rw [zeros_length]; exact hsize)]
  · rw [zeros, List.drop_replicate, ← zeros, cstr_append_zeros]

/-- What is fetched of a record is its value. -/
theorem scriptFetch_value {addr : Int} {sk : Entry}
    (haddr : fetchedRecord ⟨img, cnt⟩ main sub = some (some addr))
    (hread : readEntry img addr = some sk) (count : Nat) :
    scriptFetch ⟨img, cnt⟩ main sub count = (fetchValue img sk count).map (⟨0, ·⟩) := by
  rw [scriptFetch_record, haddr]
  simp only [Option.bind_some, fetchedFrom, recordValue, hread, Option.bind_eq_bind]

/-- The records found decide what is fetched. -/
theorem scriptFetch_found {r : Option Int} (hr : fetchedRecord ⟨img, cnt⟩ main sub = some r)
    (hget : getSubKey img main sub = some r) {count : Nat} {f : Fetched}
    (hf : scriptFetch ⟨img, cnt⟩ main sub count = some f) :
    f.ret = 0 ↔ ∃ addr, getSubKey img main sub = some (some addr) := by
  rw [scriptFetch_record, hr, Option.bind_some] at hf
  rw [hget]
  cases r with
  | none =>
    cases hf
    simp
  | some addr =>
    rw [fetchedFrom, Option.map_eq_some_iff] at hf
    obtain ⟨value, -, rfl⟩ := hf
    simp

/-- Of one integer record both read the same integer. -/
theorem integers_agree {addr : Int} {sk : Entry}
    (haddr : fetchedRecord ⟨img, cnt⟩ main sub = some (some addr))
    (hget : getSubKey img main sub = some (some addr)) (hread : readEntry img addr = some sk)
    (htype : sk.type = 1) {count : Nat} {f : Fetched} (hcount : 1 ≤ count)
    (hf : scriptFetch ⟨img, cnt⟩ main sub count = some f) :
    ∃ w, word32 f.value = some w ∧ scriptGetInt img main sub = some (toInt w) := by
  rw [scriptFetch_value haddr hread, Option.map_eq_some_iff] at hf
  obtain ⟨value, hvalue, rfl⟩ := hf
  have h1 : sk.snd >>> 16 &&& 0xffff = 1 := htype
  simp only [fetchValue, if_pos h1, Option.bind_eq_bind, Option.bind_eq_some_iff,
    if_neg (show count ≠ 0 by omega), Option.some.injEq] at hvalue
  obtain ⟨w, hw, rfl⟩ := hvalue
  refine ⟨w, word32_le32 w _, ?_⟩
  rw [scriptGetInt, hget]
  simp [hread, htype, hw]

/-- Of one string record that fits both read the same string. -/
theorem strings_agree {addr : Int} {sk : Entry}
    (haddr : fetchedRecord ⟨img, cnt⟩ main sub = some (some addr))
    (hget : getSubKey img main sub = some (some addr)) (hread : readEntry img addr = some sk)
    (htype : sk.type = 2)
    (hfits : ∀ text, readBytes img (sk.wordCount * 4) (toInt (sk.fst <<< 2)) = some text →
      (cstr text).length ≤ sk.wordCount)
    {count size : Nat} {f : Fetched} (hcount : sk.wordCount ≤ count)
    (hsize : sk.wordCount * 4 ≤ size)
    (hf : scriptFetch ⟨img, cnt⟩ main sub count = some f) :
    ∃ buf, scriptGetStr img main sub (zeros size) = some (some buf) ∧ cstr buf = cstr f.value := by
  rw [scriptFetch_value haddr hread, Option.map_eq_some_iff] at hf
  obtain ⟨value, hvalue, rfl⟩ := hf
  rw [fetchValue_string htype hcount] at hvalue
  split at hvalue
  · next h0 =>
    cases hvalue
    have hnone : copied img sk.wordCount (toInt (sk.fst <<< 2)) = some [] := by
      rw [copied, if_pos h0]
    obtain ⟨buf, hbuf, hcstr⟩ := scriptGetStr_copied hget hread htype hnone (Nat.zero_le size)
    exact ⟨buf, hbuf, by rw [hcstr, fillValue, cstr_padTo]⟩
  · obtain ⟨text, htext, rfl⟩ := Option.map_eq_some_iff.mp hvalue
    obtain ⟨buf, hbuf, hcut⟩ := scriptGetStr_copied hget hread htype (copied_text htext)
      (show (text.take sk.wordCount).length ≤ size by rw [List.length_take]; omega)
    refine ⟨buf, hbuf, ?_⟩
    show cstr buf = cstr (fillValue text count)
    rw [hcut, cstr_take, List.take_of_length_le (hfits text htext), fillValue, cstr_padTo]

/-- A string that both read the same fits: a buffer of as many words as it has shows what
`script_get_str` leaves out. -/
theorem text_fits {addr : Int} {sk : Entry} {text : List UInt8}
    (h : ReadersAgree ⟨img, cnt⟩ main sub)
    (haddr : fetchedRecord ⟨img, cnt⟩ main sub = some (some addr))
    (hget : getSubKey img main sub = some (some addr)) (hread : readEntry img addr = some sk)
    (htype : sk.type = 2)
    (htext : readBytes img (sk.wordCount * 4) (toInt (sk.fst <<< 2)) = some text) :
    (cstr text).length ≤ sk.wordCount := by
  obtain ⟨value, hvalue, hcstr⟩ : ∃ value, fetchValue img sk sk.wordCount = some value ∧
      cstr value = cstr text := by
    rw [fetchValue_string htype (Nat.le_refl _), htext]
    split
    · next h0 =>
      have hnil : text = [] := List.eq_nil_of_length_eq_zero (by
        rw [readBytes_length htext, h0, Nat.zero_mul])
      exact ⟨_, rfl, by rw [fillValue, cstr_padTo, hnil]⟩
    · exact ⟨_, rfl, cstr_padTo _ _⟩
  have hfetch : scriptFetch ⟨img, cnt⟩ main sub sk.wordCount = some ⟨0, value⟩ := by
    rw [scriptFetch_value haddr hread, hvalue, Option.map_some]
  obtain ⟨buf, hbuf, hsame⟩ := h.str addr sk haddr hread htype sk.wordCount
    (sk.wordCount * 4) ⟨0, value⟩ (Nat.le_refl _) (Nat.le_refl _) hfetch
  obtain ⟨buf', hbuf', hcut⟩ := scriptGetStr_copied hget hread htype (copied_text htext)
    (show (text.take sk.wordCount).length ≤ sk.wordCount * 4 by rw [List.length_take]; omega)
  obtain rfl : buf = buf' := Option.some.inj (Option.some.inj (hbuf.symm.trans hbuf'))
  have hall : (cstr text).take sk.wordCount = cstr text := by
    calc (cstr text).take sk.wordCount
        = cstr (text.take sk.wordCount) := (cstr_take _ _).symm
      _ = cstr buf := hcut.symm
      _ = cstr value := hsame
      _ = cstr text := hcstr
  have hlen := List.length_take_le sk.wordCount (cstr text)
  rwa [hall] at hlen

theorem readers_agree_iff (himg : Tabled img cnt) (hmain : main.length ≤ 31)
    (hsub : sub.length ≤ 31) : ReadersAgree ⟨img, cnt⟩ main sub ↔
      FirstHas main sub (directory img) ∧ TextFits img main sub := by
  have hget : getSubKey img main sub = _ := getSubKey_directory himg
  have hfetched := fetchedRecord_directory himg hmain hsub
  refine ⟨?_, ?_⟩
  · intro h
    obtain ⟨r, hr, hr'⟩ := h.record
    have hsame : firstSectionRecord main sub (directory img) =
        firstRecord main sub (directory img) := by
      rw [hfetched] at hr
      rw [hget] at hr'
      exact (Option.some.inj hr').trans (Option.some.inj hr).symm
    refine ⟨(firstSectionRecord_eq_iff main sub _).mp hsame, ?_⟩
    intro addr sk text haddr hread htype htext
    rw [haddr] at hfetched hsame
    rw [hsame] at hget
    exact text_fits h hfetched hget hread htype htext
  · intro ⟨hfirst, htexts⟩
    rw [(firstSectionRecord_eq_iff main sub _).mpr hfirst] at hget
    have hboth : ∀ addr, fetchedRecord ⟨img, cnt⟩ main sub = some (some addr) →
        firstRecord main sub (directory img) = some addr := by
      intro addr haddr
      exact Option.some.inj (hfetched.symm.trans haddr)
    refine ⟨fun count f hf => scriptFetch_found hfetched hget hf, ⟨_, hfetched, hget⟩, ?_, ?_⟩
    · intro addr sk haddr hread htype count f hcount hf
      rw [hboth addr haddr] at hget
      exact integers_agree haddr hget hread htype hcount hf
    · intro addr sk haddr hread htype count size f hcount hsize hf
      rw [hboth addr haddr] at hget
      apply strings_agree haddr hget hread htype _ hcount hsize hf
      intro text htext
      exact htexts addr sk text (hboth addr haddr) hread htype htext

end Agree

/-- **On every compiled image the two readers agree about a section and a key just when the
first section so named has the key, if any has it, and the record is no string of more bytes
than words.** -/
theorem sw_script_agrees_iff {b : ScriptBuf} {img : List UInt8} (h : Compiles b img)
    {main sub : List UInt8} (hmain : main.length ≤ 31) (hsub : sub.length ≤ 31) :
    (∃ s, initScript img = some s ∧ ReadersAgree s main sub) ↔
      FirstHas main sub (directory img) ∧ TextFits img main sub := by
  obtain ⟨cnt, himg⟩ := compiles_tabled h
  have hcnt : toInt (.ofNat cnt) = cnt := toInt_ofNat (by have := himg.count; omega)
  have hinit : initScript img = some ⟨img, cnt⟩ := by
    simp only [initScript, himg.head, Option.bind_eq_bind, Option.bind_some, hcnt]
  rw [← readers_agree_iff himg hmain hsub, hinit]
  simp

/-- A script with one section and one integer, read by both. -/
theorem sw_script_agrees_iff_first : ∃ img s, Compiles ⟨ascii "[a]\nk=1\n", 0, [0]⟩ img ∧
    initScript img = some s ∧ ReadersAgree s (ascii "a") (ascii "k") := by
  have hrun : ((parseScript 2 ⟨ascii "[a]\nk=1\n", 0, [0]⟩).bind Except.toOption).map
      (fun img => (directory img, (readEntry img 56).map Entry.type)) =
        some ([⟨ascii "a", [(ascii "k", 56)]⟩], some 1) := by decide +kernel
  obtain ⟨img, himg, hdir⟩ := Option.map_eq_some_iff.mp hrun
  obtain ⟨hdir, htype⟩ := Prod.mk.inj hdir
  have hcompiles := compiles_of_run himg
  have hfirst : FirstHas (ascii "a") (ascii "k") (directory img) := by
    rw [hdir]
    intro l hl _
    obtain rfl : _ = l := Option.some.inj hl
    decide
  have htexts : TextFits img (ascii "a") (ascii "k") := by
    rw [TextFits, hdir]
    intro addr sk text haddr hread hstr
    obtain rfl : 56 = addr := Option.some.inj haddr
    rw [hread, Option.map_some, Option.some.injEq, hstr] at htype
    exact absurd htype (by decide)
  obtain ⟨s, hs, hagree⟩ := (sw_script_agrees_iff hcompiles (by decide) (by decide)).mpr
    ⟨hfirst, htexts⟩
  exact ⟨img, s, hcompiles, hs, hagree⟩

/-- Two queries the readers part on: a key of the second section of a name, which only
`script_fetch` finds; and a string of five bytes, of which `script_get_str` copies two. -/
theorem sw_script_apart :
    (∃ img s, Compiles ⟨ascii "[a]\nk=1\n[a]\nm=2\n", 0, [0]⟩ img ∧ initScript img = some s ∧
      ¬ ReadersAgree s (ascii "a") (ascii "m")) ∧
    ∃ img s, Compiles ⟨ascii "[a]\nk=hello\n", 0, [0]⟩ img ∧ initScript img = some s ∧
      ¬ ReadersAgree s (ascii "a") (ascii "k") := by
  refine ⟨?_, ?_⟩
  · have hrun : ((parseScript 4 ⟨ascii "[a]\nk=1\n[a]\nm=2\n", 0, [0]⟩).bind
        Except.toOption).map (fun img => (initScript img).map fun s =>
          (fetchedRecord s (ascii "a") (ascii "m"),
            getSubKey s.scriptBuf (ascii "a") (ascii "m"))) =
        some (some (some (some 136), some none)) := by decide +kernel
    obtain ⟨img, himg, hs⟩ := Option.map_eq_some_iff.mp hrun
    obtain ⟨s, hs, hpair⟩ := Option.map_eq_some_iff.mp hs
    obtain ⟨hfetched, hget⟩ := Prod.mk.inj hpair
    refine ⟨img, s, compiles_of_run himg, hs, fun h => ?_⟩
    obtain ⟨r, hr, hr'⟩ := h.record
    rw [hfetched] at hr
    rw [hget] at hr'
    cases hr
    cases hr'
  · have hrun : ((parseScript 2 ⟨ascii "[a]\nk=hello\n", 0, [0]⟩).bind Except.toOption).map
        (fun img => (initScript img).map fun s => (fetchedRecord s (ascii "a") (ascii "k"),
          (readEntry s.scriptBuf 56).map fun e => (e.type, e.wordCount))) =
        some (some (some (some 56), some (2, 2))) := by decide +kernel
    have htexts : ((parseScript 2 ⟨ascii "[a]\nk=hello\n", 0, [0]⟩).bind Except.toOption).map
        (fun img => (initScript img).map fun s =>
          ((scriptFetch s (ascii "a") (ascii "k") 2).map fun f => cstr f.value,
            (scriptGetStr s.scriptBuf (ascii "a") (ascii "k") (zeros 8)).map (Option.map cstr))) =
        some (some (some (ascii "hello"), some (some (ascii "he")))) := by decide +kernel
    obtain ⟨img, himg, hs⟩ := Option.map_eq_some_iff.mp hrun
    obtain ⟨s, hs, hrecord⟩ := Option.map_eq_some_iff.mp hs
    rw [himg, Option.map_some, hs, Option.map_some] at htexts
    simp only [Option.some.injEq, Prod.mk.injEq, Option.map_eq_some_iff] at hrecord htexts
    obtain ⟨hfetched, sk, hread, htype, hcount⟩ := hrecord
    obtain ⟨⟨f, hf, hvalue⟩, r, hr, buf', rfl, hbuf'⟩ := htexts
    refine ⟨img, s, compiles_of_run himg, hs, fun h => ?_⟩
    obtain ⟨buf, hbuf, hsame⟩ := h.str 56 sk hfetched hread htype 2 8 f (by omega) (by omega) hf
    obtain rfl : buf = buf' := Option.some.inj (Option.some.inj (hbuf.symm.trans hr))
    rw [hbuf', hvalue] at hsame
    exact absurd hsame (by decide)

end Lichee.Script

import Lichee.Script.Value
import Lichee.Base.Loop
import Mathlib.Data.List.DropRight

/- The script compiler (dragonboard/src/core/script_parser.c): `__getline`,
   `__get_key_value`, `__fill_mainkey` and `__parse_script`.

   Memory. `parse_script` reads the file into a block of exactly `len` bytes and hands
   the block over. Nothing ends it: the bytes read past it are whatever the heap holds
   there, so a `ScriptBuf` carries them (`next`, the byte right behind the block, which
   the allocator's own data makes readable, and `rest`) and every statement is about all
   of them. Reading past `rest` leaves the mapping (`Fault.scriptBuf`).

   The three tables are filled from the front, so each is the list of what has been
   written to it: `item_table` is `items` and `mainkey_idx` its length; `key_data` and
   `value_data` are the bytes below `key_addr` and `value_addr`, and the areas stay zero
   above them. The allocations and the shared memory segment are taken to succeed, and
   what is only printed (`line_num`) is left out. -/
namespace Lichee.Script
open Base

/-- A script as `__parse_script` gets it: `text` is `buf[0..len)`, the rest is the
memory behind it. -/
structure ScriptBuf where
  text : List UInt8
  next : UInt8
  rest : List UInt8
  deriving DecidableEq, Repr

/-- The memory from the start of the script on. -/
def ScriptBuf.mem (b : ScriptBuf) : List UInt8 := b.text ++ b.next :: b.rest

/-! `__getline` -/

/-- `LINE_ERROR` to `LINE_SUBKEY`. -/
inductive Flag where
  | error
  | comment
  | null
  | mainkey
  | subkey
  deriving DecidableEq, Repr

/-- The result of `__getline`: the length it returns, the flag, and where its read
pointer ends, so that the bytes from the line's start to `src` are those it has read. -/
structure Line where
  lineLen : Nat
  flag : Flag
  src : List UInt8
  deriving DecidableEq, Repr

def lineFlag (ch : UInt8) : Flag :=
  if ch = chSemi then .comment
  else if isEol ch then .null
  else if ch = chOpen then .mainkey
  else .subkey

/-- How `while (line_len < len)` ends: at a line length with the byte last read, or at a
line that is too long. -/
inductive Scan where
  | found (lineLen : Nat) (ch : UInt8) (src : List UInt8)
  | tooLong (src : List UInt8)
  deriving DecidableEq, Repr

def scanLine (len : Int) (src : List UInt8) (ch : UInt8) (lineLen : Nat) :
    Except Stop Scan :=
  if (lineLen : Int) < len then
    if isEol ch then .ok (.found lineLen ch src)
    else match src with
      | [] => .error (.fault .scriptBuf)
      | ch' :: src' =>
        if lineLen + 1 ≥ LINE_MAX_LEN then .ok (.tooLong src')
        else scanLine len src' ch' (lineLen + 1)
  else .ok (.found lineLen ch src)

/-- `__getline`. -/
def getline (buf : List UInt8) (len : Int) : Except Stop Line := do
  let (ch, src) ← rd .scriptBuf buf
  if lineFlag ch = .null then
    let (ch, src) ← rd .scriptBuf src
    .ok ⟨if ch = chLf then 2 else 1, .null, src⟩
  else
    let (ch', src) ← rd .scriptBuf src
    match ← scanLine len src ch' 1 with
    | .tooLong src => .ok ⟨0, .error, src⟩
    | .found lineLen prevCh src =>
      let (ch'', src) ← rd .scriptBuf src
      .ok ⟨if prevCh = chCr ∧ ch'' = chLf then lineLen + 2 else lineLen + 1, lineFlag ch, src⟩

/-! `__get_key_value` -/

/-- "check line": skip blanks. `none` is a line that ends there. -/
def checkLine : List UInt8 → Except Stop (Option (List UInt8))
  | [] => .error (.fault .scriptBuf)
  | ch :: src =>
    if isBlank ch then checkLine src
    else if isEol ch then .ok none
    else .ok (some (ch :: src))

/-- `while (*src != '=')`: the key's bytes, 31 at most, with `idx` of them stored. -/
def takeKey (src : List UInt8) (idx : Nat) : Except Stop (List UInt8 × List UInt8) :=
  match src with
  | [] => .error (.fault .scriptBuf)
  | ch :: src' =>
    if ch = chEq then .ok ([], ch :: src')
    else if idx + 1 ≥ 31 then .ok ([ch], src')
    else do
      let (key, rest) ← takeKey src' (idx + 1)
      .ok (ch :: key, rest)

/-- `for (; *src != '='; src++)`, and past the `=`. -/
def skipToEq : List UInt8 → Except Stop (List UInt8)
  | [] => .error (.fault .scriptBuf)
  | ch :: src => if ch = chEq then .ok src else skipToEq src

/-- The value's bytes up to the end of the line, 127 at most, with `idx` stored. -/
def takeValue (src : List UInt8) (idx : Nat) : Except Stop (List UInt8) :=
  match src with
  | [] => .error (.fault .scriptBuf)
  | ch :: src' =>
    if isEol ch then .ok []
    else if idx + 1 ≥ 127 then .ok [ch]
    else do
      let value ← takeValue src' (idx + 1)
      .ok (ch :: value)

/-- The two trimming loops: trailing blanks go, the first byte always stays. -/
def trim : List UInt8 → List UInt8
  | [] => []
  | ch :: cs => ch :: cs.rdropWhile isBlank

/-- `__get_key_value`: `none` is -1, an empty line. The bytes behind the key and the
value in `key[32]` and `value[128]` are the zeros the caller has put there. -/
def getKeyValue (buf : List UInt8) : Except Stop (Option (List UInt8 × List UInt8)) := do
  match ← checkLine buf with
  | none => .ok none
  | some src =>
    let (key, src) ← takeKey src 0
    let src ← skipToEq src
    match ← checkLine src with
    | none => .ok (some (trim key, []))
    | some src =>
      let value ← takeValue src 0
      .ok (some (trim key, trim value))

/-! `__fill_mainkey` -/

/-- The name's bytes up to `]`, with `i` stored; the 32nd is read and left out. -/
def takeName (src : List UInt8) (i : Nat) : Except Stop (List UInt8) :=
  match src with
  | [] => .error (.fault .scriptBuf)
  | ch :: src' =>
    if ch = chClose then .ok []
    else if i + 1 ≥ ITEM_NAME_MAX_LEN then .ok []
    else do
      let name ← takeName src' (i + 1)
      .ok (ch :: name)

/-- `__fill_mainkey`: the name it leaves in the item, `none` when it returns -1. -/
def fillMainkey (buf : List UInt8) : Except Stop (Option (List UInt8)) := do
  let name ← takeName (buf.drop 1) 0
  if name.headD 0 = 0 then .ok none else .ok (some name)

/-! `__parse_script` -/

/-- A `script_item`. `name` is the part of `name[32]` that has been written. -/
structure Item where
  name : List UInt8
  length : Nat
  offset : Nat
  deriving DecidableEq, Repr

/-- What the lines before have written: `item_table`, `key_data`, `value_data` and the two
counters of records and of value words. -/
structure Tables where
  items : List Item
  keyData : List UInt8
  valueData : List UInt8
  subkeyIdx : Nat
  valueIdx : Nat
  deriving DecidableEq, Repr

/-- The variables of the line loop. -/
structure State where
  src : List UInt8
  restLen : Int
  tables : Tables
  deriving DecidableEq, Repr

/-- The size of the key area and of the value area. -/
def AREA_SIZE : Nat := 512 * 1024

/-- Write `bytes` at the cursor of an area and advance it by `width`. The bytes between
stay zero. -/
def put (f : Fault) (area bytes : List UInt8) (width : Nat) : Except Stop (List UInt8) :=
  if area.length + bytes.length ≤ AREA_SIZE then .ok (area ++ padTo width bytes)
  else .error (.fault f)

/-- The name of a record: `strcpy(key_addr, key); key_addr += KEY_MAX_LEN`. -/
def putKey (t : Tables) (key : List UInt8) : Except Stop Tables := do
  let keyData ← put .keyData t.keyData (cstr key ++ [0]) KEY_MAX_LEN
  .ok { t with keyData := keyData }

/-- `bytes` at `value_addr`, then the two words that describe them: `value_idx`, and the
number of words with the type above it. -/
def putValue (t : Tables) (type : DataType) (words : UInt32) (bytes : List UInt8) :
    Except Stop Tables := do
  let valueData ← put .valueData t.valueData bytes bytes.length
  let keyData ← put .keyData t.keyData (le32 (.ofNat t.valueIdx)) 4
  let keyData ← put .keyData keyData (le32 (words ||| type.code <<< 16)) 4
  .ok { t with
    valueData := valueData, keyData := keyData, valueIdx := t.valueIdx + words.toNat }

/-- What `strncpy` takes the string of a `DATA_TYPE_STRING` value from. -/
def stringFrom (r : Str2int) : List UInt8 :=
  if r.fmtValue.getD 1 0 = 1 then r.buf.drop 7
  else if r.fmtValue.getD 1 0 = 2 then r.buf.drop 1
  else r.buf

/-- `subkey_idx++` and `item_table[mainkey_idx - 1].length++`. -/
def countSubkey (t : Tables) : Except Stop Tables :=
  match t.items.getLast? with
  | none => .error (.fault .itemTable)
  | some item =>
    .ok { t with
      items := t.items.dropLast ++ [{ item with length := item.length + 1 }]
      subkeyIdx := t.subkeyIdx + 1 }

/-- The record of one key line: its name, its value by type, and the two counters. -/
def storeSubkey (t : Tables) (key value : List UInt8) : Except Stop Tables := do
  let t ← putKey t key
  match ← getStr2int (padTo VALUE_MAX_LEN value) with
  | none =>
    -- `default:` prints "fix me" and moves the key cursor by the last word only
    countSubkey { t with keyData := t.keyData ++ zeros 4 }
  | some r =>
    let words := r.fmtValue.getD 0 0
    match r.type with
    | .singleWord => do
      let t ← putValue t .singleWord 1 (le32 words)
      countSubkey t
    | .string => do
      let t ← putValue t .string words (strncpy (stringFrom r) (words.toNat * 4))
      countSubkey t
    | .gpio => do
      let t ← putValue t .gpio 6 ((r.fmtValue.take 6).flatMap le32)
      countSubkey t

/-- A section line: the next item, with the offset the lengths so far give it. -/
def storeMainkey (t : Tables) (name : List UInt8) : Tables :=
  let offset := match t.items.getLast? with
    | none => 0
    | some prev => prev.offset + prev.length * 10
  { t with items := t.items ++ [⟨name, 0, offset⟩] }

/-- One iteration of the line loop. -/
def step (s : State) : Except Stop State := do
  let line ← getline s.src s.restLen
  let restLen := s.restLen - line.lineLen
  match line.flag with
  | .comment | .null => .ok ⟨s.src.drop line.lineLen, restLen, s.tables⟩
  | .mainkey =>
    if s.tables.items.length ≥ ITEM_MAX_COUNT then .error (.fault .itemTable)
    else match ← fillMainkey s.src with
      | none => .error .format
      | some name => .ok ⟨s.src.drop line.lineLen, restLen, storeMainkey s.tables name⟩
  | .subkey =>
    match ← getKeyValue s.src with
    -- `continue` skips `src += line_len`
    | none => .ok ⟨s.src, restLen, s.tables⟩
    | some (key, value) => do
      let tables ← storeSubkey s.tables key value
      .ok ⟨s.src.drop line.lineLen, restLen, tables⟩
  | .error => .error .format

/-- `while (rest_len)`. -/
def more (s : State) : Bool := s.restLen != 0

def initTables : Tables := ⟨[], [], [], 0, 0⟩

def initState (b : ScriptBuf) : State := ⟨b.mem, b.text.length, initTables⟩

/-- `s` is seen at the head of the line loop. -/
abbrev Seen (b : ScriptBuf) (s : State) : Prop := Reach more step (initState b) s

/-- The words of an item: its name, its length and its offset. -/
def itemBytes (delta : Nat) (item : Item) : List UInt8 :=
  padTo ITEM_NAME_MAX_LEN item.name ++ le32 (.ofNat item.length) ++
    le32 (.ofNat (item.offset + delta))

/-- "recalc every subkey offset": add `delta` to the word behind each of `n` names. -/
def relocate (delta : Nat) : Nat → List UInt8 → List UInt8
  | 0, _ => []
  | n + 1, area =>
    area.take KEY_MAX_LEN ++
      le32 (((word32 (area.drop KEY_MAX_LEN)).getD 0) + .ofNat delta) ++
      (area.drop (KEY_MAX_LEN + 4)).take 4 ++ relocate delta n (area.drop (KEY_MAX_LEN + 8))

def SCRIPT_VERSION0 : UInt32 := 1
def SCRIPT_VERSION1 : UInt32 := 0
def SCRIPT_VERSION2 : UInt32 := 0

/-- `script_head`: the section count and the version. -/
def headBytes (n : Nat) : List UInt8 :=
  le32 (.ofNat n) ++ le32 SCRIPT_VERSION0 ++ le32 SCRIPT_VERSION1 ++ le32 SCRIPT_VERSION2

/-- What follows the loop: the two relocations and the four copies into the segment. -/
def finish (t : Tables) : Except Stop (List UInt8) :=
  let mainkeyIdx := t.items.length
  let delta := 4 + mainkeyIdx * 10
  if mainkeyIdx = 0 then .error .format
  else if t.subkeyIdx * 40 > AREA_SIZE then .error (.fault .keyData)
  else .ok (headBytes mainkeyIdx ++ (t.items.flatMap (itemBytes delta) ++
    (relocate (delta + t.subkeyIdx * 10) t.subkeyIdx (padTo (t.subkeyIdx * 40) t.keyData) ++
      padTo (t.valueIdx * 4) t.valueData)))

/-- `__parse_script` with the line loop cut off after `n` lines. -/
def parseScript (n : Nat) (b : ScriptBuf) : Option (Except Stop (List UInt8)) :=
  (whileLoop more step n (initState b)).map fun r => r >>= fun s => finish s.tables

/-- The script compiles to `img`. -/
def Compiles (b : ScriptBuf) (img : List UInt8) : Prop :=
  ∃ n, parseScript n b = some (.ok img)

/-- An image is written from what stands at the head of the loop when it ends. -/
theorem Compiles.finished {b : ScriptBuf} {img : List UInt8} (h : Compiles b img) :
    ∃ s, Seen b s ∧ finish s.tables = .ok img := by
  obtain ⟨n, hn⟩ := h
  obtain ⟨r, hr, hbind⟩ := Option.map_eq_some_iff.mp hn
  obtain ⟨s, rfl, hfin⟩ := bind_eq_ok.mp hbind
  exact ⟨s, (reach_of_whileLoop hr).1, hfin⟩

/-- A run that ends in an image, found by running it. -/
theorem compiles_of_run {n : Nat} {b : ScriptBuf} {img : List UInt8}
    (h : (parseScript n b).bind Except.toOption = some img) : Compiles b img := by
  obtain ⟨r, hr, hok⟩ := Option.bind_eq_some_iff.mp h
  cases r with
  | error e => cases hok
  | ok img' =>
    cases hok
    exact ⟨n, hr⟩

theorem compiles_unique {b : ScriptBuf} {img img' : List UInt8} (h : Compiles b img)
    (h' : Compiles b img') : img = img' := by
  obtain ⟨n, hn⟩ := h
  obtain ⟨m, hm⟩ := h'
  obtain ⟨r, hr, h₁⟩ := Option.map_eq_some_iff.mp hn
  obtain ⟨r', hr', h₂⟩ := Option.map_eq_some_iff.mp hm
  rw [whileLoop_unique hr hr', h₂] at h₁
  exact (Except.ok.inj h₁).symm

end Lichee.Script

import Lichee.Script.Value

/- The reader of compiled scripts (dragonboard/src/core/script.c). `init_script` takes
   the section count from the head of the image once; every lookup then walks the
   section table and the key records of each section with the name asked for.

   The image is the attached segment, and a read outside it has no result (`none`). -/
namespace Lichee.Script
open Base

/-- `script_buf` and `mainkey_cnt` after `init_script`. -/
structure Attached where
  scriptBuf : List UInt8
  mainkeyCnt : Int
  deriving DecidableEq, Repr

/-- A word as the `int` it holds. -/
def toInt (w : UInt32) : Int := w.toBitVec.toInt

/-- `init_script`. -/
def initScript (img : List UInt8) : Option Attached := do
  let cnt ← read32 img 0
  some ⟨img, toInt cnt⟩

/-- `script_mainkey_cnt`. -/
def scriptMainkeyCnt (s : Attached) : Int := s.mainkeyCnt

/-- A `script_mainkey`, and with `offset` and `pattern` a `script_subkey`: a name and two
words. -/
structure Entry where
  name : List UInt8
  fst : UInt32
  snd : UInt32
  deriving DecidableEq, Repr

def readEntry (img : List UInt8) (addr : Int) : Option Entry := do
  let name ← readBytes img 32 addr
  let fst ← read32 img (addr + 32)
  let snd ← read32 img (addr + 36)
  some ⟨name, fst, snd⟩

/-- The address of entry `i` of the section table. -/
def mainkeyAddr (i : Nat) : Int := 16 + (i : Int) * 40

/-- `script_mainkey_name`: the 32 bytes `strncpy` stores. -/
def scriptMainkeyName (s : Attached) (idx : Nat) : Option (List UInt8) := do
  let mainkey ← readEntry s.scriptBuf (mainkeyAddr idx)
  some (strncpy mainkey.name 32)

/-- What `script_fetch` leaves: its return value and the bytes of `value[count]`. -/
structure Fetched where
  ret : Int
  value : List UInt8
  deriving DecidableEq, Repr

/-- `value[count]` after `memset` and a copy of `bytes` to its front. -/
def fillValue (bytes : List UInt8) (count : Nat) : List UInt8 := padTo (count * 4) bytes

/-- The value of a record, by its type. -/
def fetchValue (img : List UInt8) (subkey : Entry) (count : Nat) : Option (List UInt8) :=
  let pattern := subkey.snd >>> 16 &&& 0xffff
  let wordcnt := (subkey.snd &&& 0xffff).toNat
  let addr := toInt (subkey.fst <<< 2)
  if pattern = 1 then do
    let w ← read32 img addr
    if count = 0 then none else some (fillValue (le32 w) count)
  else if pattern = 2 then
    if wordcnt = 0 then some (fillValue [] count)
    else do
      let bytes ← readBytes img ((min wordcnt count) * 4) addr
      some (fillValue bytes count)
  -- `DATA_TYPE_GPIO` and `default:` only print "fix me"
  else some (fillValue [] count)

/-- "search sub key": the records `j`, `j + 1`, ... of a section, `n` of them. -/
def searchSubkey (img : List UInt8) (offset : UInt32) (subName : List UInt8) (count : Nat) :
    Nat → Nat → Option (Option (List UInt8))
  | 0, _ => some none
  | n + 1, j => do
    let subkey ← readEntry img (toInt (offset <<< 2) + (j : Int) * 40)
    if strncmp0 subkey.name subName 31 then
      let value ← fetchValue img subkey count
      some (some value)
    else searchSubkey img offset subName count n (j + 1)

/-- "search main key": the sections `i`, `i + 1`, ..., `n` of them. A section that lacks
the key does not end the search. -/
def searchMainkey (img : List UInt8) (mainName subName : List UInt8) (count : Nat) :
    Nat → Nat → Option Fetched
  | 0, _ => some ⟨-1, fillValue [] count⟩
  | n + 1, i => do
    let mainkey ← readEntry img (mainkeyAddr i)
    if strncmp0 mainkey.name mainName 31 then
      match ← searchSubkey img mainkey.snd subName count (toInt mainkey.fst).toNat 0 with
      | some value => some ⟨0, value⟩
      | none => searchMainkey img mainName subName count n (i + 1)
    else searchMainkey img mainName subName count n (i + 1)

/-- `script_fetch`. -/
def scriptFetch (s : Attached) (mainName subName : List UInt8) (count : Nat) :
    Option Fetched :=
  searchMainkey s.scriptBuf mainName subName count s.mainkeyCnt.toNat 0

end Lichee.Script

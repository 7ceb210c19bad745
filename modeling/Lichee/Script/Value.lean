import Lichee.Base.CStr
import Lichee.Base.Errors

/- The value parser of the script compiler (`__get_str2int` in
   dragonboard/src/core/script_parser.c). It reads the 128-byte `value` buffer of its
   caller, fills the eight words of `fmt_value` and returns a data type, or -1 when a
   `port:` value does not parse.

   A pointer into a buffer is the list of the bytes from it to the end of the buffer, so
   `*src++` is a match on a cons and a read past the buffer is a match on `[]`. C leaves
   such a read (and a write past an array) undefined: the model stops there with the
   `Fault` naming the object. -/
namespace Lichee.Script
open Base

def KEY_MAX_LEN : Nat := 32
def VALUE_MAX_LEN : Nat := 128
def ITEM_NAME_MAX_LEN : Nat := 32
def ITEM_MAX_COUNT : Nat := 128
def LINE_MAX_LEN : Nat := 512

/-- The object an undefined access misses. -/
inductive Fault where
  /-- the memory mapped from the script buffer on -/
  | scriptBuf
  /-- `value[VALUE_MAX_LEN]` of `__parse_script` -/
  | valueBuf
  /-- `str[128]` of `__get_str2int` -/
  | strBuf
  /-- `fmt_value[8]` of `__parse_script` -/
  | fmtValue
  /-- `item_table[ITEM_MAX_COUNT]` -/
  | itemTable
  /-- the 512KB key area -/
  | keyData
  /-- the 512KB value area -/
  | valueData
  deriving DecidableEq, Repr

/-- Why a run of the compiler leaves its line loop early: `ret = -1; goto out`, or an
undefined access. -/
inductive Stop where
  | format
  | fault (f : Fault)
  deriving DecidableEq, Repr

/-- `*src++`. -/
def rd (f : Fault) : List UInt8 → Except Stop (UInt8 × List UInt8)
  | [] => .error (.fault f)
  | ch :: src => .ok (ch, src)

/-- The data types `__get_str2int` returns; -1 is `none` of the option it is put in. -/
inductive DataType where
  | singleWord
  | string
  | gpio
  deriving DecidableEq, Repr

/-- `DATA_TYPE_SINGLE_WORD`, `DATA_TYPE_STRING`, `DATA_TYPE_GPIO`. -/
def DataType.code : DataType → UInt32
  | .singleWord => 1
  | .string => 2
  | .gpio => 4

/-- What `__get_str2int` leaves its caller: the data type, `fmt_value` and the value
buffer, which the quoted form writes to. -/
structure Str2int where
  type : DataType
  fmtValue : List UInt32
  buf : List UInt8
  deriving DecidableEq, Repr

/-- The value of one more decimal digit. -/
def decStep (temp : UInt32) (ch : UInt8) : UInt32 := temp * 10 + (ch.toUInt32 - 0x30)

/-- `while (ch != '<')`: the digits of the port number. `none` is `return -1`; at the
end of the text the pointer stays on the NUL. -/
def portNum (src : List UInt8) (ch : UInt8) (temp : UInt32) :
    Except Stop (Option (UInt32 × List UInt8)) :=
  if ch = chLt then .ok (some (temp, src))
  else if isdigit ch then
    match src with
    | [] => .error (.fault .valueBuf)
    | ch' :: src' => portNum src' ch' (decStep temp ch)
  else if ch = 0 then .ok (some (temp, ch :: src))
  else .ok none

/-- `while (ch != '>')`: one attribute, in lower case, into `str[i++]`. -/
def attrText (src : List UInt8) (ch : UInt8) (i : Nat) :
    Except Stop (List UInt8 × List UInt8) :=
  if ch = chGt then .ok ([], src)
  else if i ≥ 128 then .error (.fault .strBuf)
  else match src with
    | [] => .error (.fault .valueBuf)
    | ch' :: src' => do
      let (str, rest) ← attrText src' ch' (i + 1)
      .ok (tolower ch :: str, rest)

/-- The digits of an attribute up to its NUL. -/
def attrDigits : List UInt8 → UInt32 → Option UInt32
  | [], temp => some temp
  | ch :: str, temp => if isdigit ch then attrDigits str (decStep temp ch) else none

/-- The word an attribute stands for; `none` is `return -1`. -/
def attrWord (str : List UInt8) : Option UInt32 :=
  let s := cstr str
  if s = ascii "default" ∨ s = ascii "none" ∨ s = ascii "null" ∨ s = ascii "-1" then
    some (-1)
  else if s.head? = some chMinus then (attrDigits s.tail 0).map (· * -1)
  else attrDigits s 0

/-- `while (ch != '\0')`: the attributes, appended to the words of `value[]` so far, of
which `n` are still free. -/
def gpioAttrs : Nat → List UInt32 → UInt8 → List UInt8 → Except Stop (Option (List UInt32))
  | n, value, ch, src =>
    if ch = 0 then .ok (some value)
    else do
      let (str, src) ← attrText src ch 0
      match attrWord str with
      | none => .ok none
      | some w =>
        match n with
        -- the word is stored before the number of words is looked at
        | 0 => .error (.fault .fmtValue)
        | n + 1 =>
          let (ch, src) ← rd .valueBuf src
          if ch = chLt then
            let (ch, src) ← rd .valueBuf src
            gpioAttrs n (value ++ [w]) ch src
          else if ch = 0 then .ok (some (value ++ [w]))
          else .ok none

/-- `switch (idx)`: attributes not given are -1; none, or more than four, are refused. -/
def gpioFill (value : List UInt32) : Option (List UInt32) :=
  if 3 ≤ value.length ∧ value.length ≤ 6 then
    some (value ++ List.replicate (6 - value.length) (-1))
  else none

/-- The port letter or `power`, after `port:p`. `none` is `return -1`. -/
def portLetter (src : List UInt8) : Except Stop (Option (UInt32 × List UInt8)) :=
  if strncasecmp0 src (ascii "ower") then .ok (some (0xffff, src.drop 4))
  else do
    let (ch, src) ← rd .valueBuf src
    if islower ch then .ok (some (ch.toUInt32 - 0x61 + 1, src))
    else if isupper ch then .ok (some (ch.toUInt32 - 0x41 + 1, src))
    else .ok none

/-- The `port:p` branch from the byte after the prefix on. -/
def gpioValue (src : List UInt8) : Except Stop (Option (List UInt32)) := do
  match ← portLetter src with
  | none => .ok none
  | some (port, src) =>
    let (ch, src) ← rd .valueBuf src
    match ← portNum src ch 0 with
    | none => .ok none
    | some (num, src) =>
      let (ch, src) ← rd .valueBuf src
      match ← gpioAttrs 6 [port, num] ch src with
      | none => .ok none
      | some value => .ok (gpioFill value)

/-- `while (src[idx] != stop)`, left at the latest with `idx == 128`. -/
def countTo (stop : UInt8) : List UInt8 → Nat → Except Stop Nat
  | [], _ => .error (.fault .valueBuf)
  | ch :: src, idx =>
    if ch = stop then .ok idx
    else if idx + 1 > 127 then .ok (idx + 1)
    else countTo stop src (idx + 1)

/-- The words `idx` bytes are rounded up to. -/
def wordsFor (idx : Nat) : Nat := if idx % 4 ≠ 0 then idx / 4 + 1 else idx / 4

/-- The hexadecimal loop. Every letter is taken as a digit, the `x` of the prefix too. -/
def hexVal : List UInt8 → UInt32 → Except Stop UInt32
  | [], _ => .error (.fault .valueBuf)
  | ch :: src, temp =>
    if ch = 0 then .ok temp
    else if isdigit ch then hexVal src (temp * 16 + (ch.toUInt32 - 0x30))
    else if isupper ch then hexVal src (temp * 16 + (ch.toUInt32 - 0x41 + 10))
    else if islower ch then hexVal src (temp * 16 + (ch.toUInt32 - 0x61 + 10))
    else .ok temp

/-- The decimal loop, ended by the first byte that is no digit. -/
def decVal : List UInt8 → UInt32 → Except Stop UInt32
  | [], _ => .error (.fault .valueBuf)
  | ch :: src, temp =>
    if ch = 0 then .ok temp
    else if isdigit ch then decVal src (decStep temp ch)
    else .ok temp

/-- `__get_str2int`. `fmt_value` comes in zeroed. -/
def getStr2int (buf : List UInt8) : Except Stop (Option Str2int) :=
  if strncasecmp0 buf (ascii "port:p") then do
    match ← gpioValue (buf.drop 6) with
    | none => .ok none
    | some value => .ok (some ⟨.gpio, value ++ [0, 0], buf⟩)
  else if strncasecmp0 buf (ascii "string:") then do
    let idx ← countTo 0 (buf.drop 7) 0
    .ok (some ⟨.string, [.ofNat (wordsFor idx), 1, 0, 0, 0, 0, 0, 0], buf⟩)
  else if buf.headD 0 = chQuote then do
    let idx ← countTo chQuote (buf.drop 1) 0
    -- `src[idx] = '\0'`, with `src` one past the start of the buffer
    if idx + 1 < buf.length then
      .ok (some ⟨.string, [.ofNat (wordsFor idx), 2, 0, 0, 0, 0, 0, 0], buf.set (idx + 1) 0⟩)
    else .error (.fault .valueBuf)
  else if isdigit (buf.headD 0) && (buf.getD 1 0 == chLowerX || buf.getD 2 0 == chUpperX) then do
    let temp ← hexVal buf 0
    .ok (some ⟨.singleWord, [temp, 0, 0, 0, 0, 0, 0, 0], buf⟩)
  else if isdigit (buf.headD 0) || (isdigit (buf.getD 1 0) && buf.headD 0 == chMinus) then
    if buf.headD 0 = chMinus then do
      let temp ← decVal (buf.drop 1) 0
      .ok (some ⟨.singleWord, [temp * -1, 0, 0, 0, 0, 0, 0, 0], buf⟩)
    else do
      let temp ← decVal buf 0
      .ok (some ⟨.singleWord, [temp, 0, 0, 0, 0, 0, 0, 0], buf⟩)
  else do
    let idx ← countTo 0 buf 0
    .ok (some ⟨.string, [.ofNat (wordsFor idx), 0, 0, 0, 0, 0, 0, 0], buf⟩)

end Lichee.Script

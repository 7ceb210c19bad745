import Lichee.Base.Stdio

/- The conversions of `sscanf`. Each takes the bytes that are left and returns what it stores
   and the bytes behind it, or `none` where it does not match. A number is read as `strtoul`
   reads it, with an `unsigned long` of `long` bits, and cut to the 32 bits of an
   `unsigned int`. -/
namespace Lichee.Base

/-- A byte that `%o` takes for a digit. -/
def isoctal (c : UInt8) : Bool := 0x30 ≤ c && c ≤ 0x37

/-- The number a row of digits stands for in a base. -/
def numberIn (base : Nat) (ds : List UInt8) : Nat :=
  ds.foldl (fun v c => v * base + (c.toNat - 48)) 0

/-- What `strtoul` returns for digits behind an optional minus: the largest value where the
number does not fit, else the number, negated modulo the range behind a minus. -/
def strtoulValue (long : Nat) (neg : Bool) (v : Nat) : Nat :=
  if v ≥ 2 ^ long then 2 ^ long - 1 else if neg then (2 ^ long - v) % 2 ^ long else v

/-- `%<n>s` -/
def scanWord (n : Nat) (s : List UInt8) : Option (List UInt8 × List UInt8) :=
  let s := s.dropWhile isspace
  let w := (s.takeWhile (!isspace ·)).take n
  if w = [] then none else some (w, s.drop w.length)

/-- ` %c` -/
def scanChar (s : List UInt8) : Option (UInt8 × List UInt8) :=
  match s.dropWhile isspace with
  | [] => none
  | c :: s => some (c, s)

/-- A number with the digits `isDigit` of a base. -/
def scanUnsigned (long base : Nat) (isDigit : UInt8 → Bool) (s : List UInt8) :
    Option (UInt32 × List UInt8) :=
  let (neg, s) := sign (s.dropWhile isspace)
  let ds := s.takeWhile isDigit
  if ds = [] then none
  else some (.ofNat (strtoulValue long neg (numberIn base ds)), s.drop ds.length)

/-- `%o` -/
def scanOctal (long : Nat) : List UInt8 → Option (UInt32 × List UInt8) :=
  scanUnsigned long 8 isoctal

/-- `%u` -/
def scanDecimal (long : Nat) : List UInt8 → Option (UInt32 × List UInt8) :=
  scanUnsigned long 10 isdigit

/-- `strtoul(s, &p, 10)`: the value, and the string from `p` on. -/
def strtoul (long : Nat) (s : List UInt8) : Nat × List UInt8 :=
  let (neg, r) := sign (s.dropWhile isspace)
  let ds := r.takeWhile isdigit
  if ds = [] then (0, s) else (strtoulValue long neg (numberIn 10 ds), r.drop ds.length)

def isxdigit (c : UInt8) : Bool :=
  isdigit c || (0x61 ≤ tolower c && tolower c ≤ 0x66)

/-- The value of a hexadecimal digit. -/
def xdigit (c : UInt8) : Nat := if isdigit c then c.toNat - 48 else (tolower c).toNat - 87

/-- What `0x` in front of a hexadecimal digit is followed by. -/
def hexDigits (s : List UInt8) : List UInt8 :=
  match s with
  | z :: x :: s' =>
    if z = ch0 ∧ tolower x = chLowerX ∧ (s'.head?.any isxdigit) = true then s' else s
  | _ => s

/-- `strtoul(s, NULL, 16)` -/
def strtoulHex (long : Nat) (s : List UInt8) : Nat :=
  let (neg, r) := sign (s.dropWhile isspace)
  strtoulValue long neg
    (((hexDigits r).takeWhile isxdigit).foldl (fun v c => v * 16 + xdigit c) 0)

end Lichee.Base

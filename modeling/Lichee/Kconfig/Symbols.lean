import Lichee.Base.Errors
import Lichee.Base.Scanf
import Lichee.Kconfig.Expr
import Mathlib.Logic.Function.Basic

/- The values of symbols (package/config/symbol.c). `sym_calc_value` marks a symbol valid before it
   looks at what the symbol depends on, so that a dependency on itself ends at the value the symbol
   has had; everything it reads of another symbol it calculates first. The model follows the
   functions with the state of all symbols as a value, and stops where a text is read through a
   pointer to none. The calls go down a level of `fuel` each. Choice blocks and their values are
   part of it; the warnings and what only the interactive programs show are not. -/
namespace Lichee.Kconfig
open Base

/-! ## The symbol table -/

/-- A default: `prop->expr` and `prop->visible.expr`. -/
structure Default where
  expr : Expr
  visible : Option Expr
  deriving DecidableEq, Repr

/-- A range: the bounds of `prop->expr`, and `prop->visible.expr`. -/
structure Range where
  low : Symbol
  high : Symbol
  visible : Option Expr
  deriving DecidableEq, Repr

/-- What the parser and `menu_finalize` leave of a symbol: its type and properties. -/
structure Entry where
  type : SymbolType
  /-- `SYMBOL_AUTO` -/
  auto : Bool
  /-- the conditions of the properties with a text -/
  prompts : List (Option Expr)
  dirDep : Option Expr
  revDep : Option Expr
  defaults : List Default
  ranges : List Range
  /-- the choice block that the symbol is a value of (`SYMBOL_CHOICEVAL`) -/
  choice : Option Symbol
  /-- the values of a choice block (`SYMBOL_CHOICE`) -/
  values : Option (List Symbol)
  deriving DecidableEq, Repr

/-- A symbol without an entry. -/
def noEntry : Entry := ⟨.unknown, false, [], none, none, [], [], none, none⟩

/-- The symbols: their entries, `modules_sym`, and the bits of a `long`. `menu_finalize` puts a
symbol on the list of the choice block that it makes it a value of, and does so once. -/
structure Symbols where
  entry : Symbol → Entry
  modules : Symbol
  longBits : Nat
  const_entry : ∀ name, entry (.const name) = noEntry
  values_iff : ∀ c x, x ∈ (entry c).values.getD [] ↔ (entry x).choice = some c
  values_nodup : ∀ c, ((entry c).values.getD []).Nodup

namespace Symbols
variable (tab : Symbols)

def type (x : Symbol) : SymbolType := (tab.entry x).type

/-- `sym_is_choice` -/
def isChoice (x : Symbol) : Bool := (tab.entry x).values.isSome

/-- `sym_is_choice_value` -/
def isChoiceValue (x : Symbol) : Bool := (tab.entry x).choice.isSome

/-- The symbols on the list of a choice block. -/
def values (x : Symbol) : List Symbol := (tab.entry x).values.getD []

end Symbols

/-! ## The state -/

/-- A `void *`: to a text, to a symbol, or to nothing. -/
inductive Val
  | null
  | text (s : List UInt8)
  | symbol (s : Symbol)
  deriving DecidableEq, Repr

/-- `struct symbol_value` -/
structure SymbolValue where
  val : Val
  tri : Tristate
  deriving DecidableEq, Repr

/-- The part of `struct symbol` that changes: three of the flags, the value and the values of the
three dependencies, and `def[S_DEF_USER]`. -/
structure Cell where
  /-- `SYMBOL_VALID` -/
  valid : Bool
  /-- `SYMBOL_WRITE` -/
  write : Bool
  /-- `SYMBOL_DEF_USER` -/
  hasValue : Bool
  visible : Tristate
  dirDep : Tristate
  revDep : Tristate
  curr : SymbolValue
  user : SymbolValue
  deriving DecidableEq, Repr

/-- The cells of all symbols, and `modules_val`. -/
structure State where
  cells : Symbol → Cell
  modulesVal : Tristate

/-- A change of one symbol. -/
def State.set (s : State) (x : Symbol) (f : Cell → Cell) : State :=
  { s with cells := Function.update s.cells x (f (s.cells x)) }

/-- The calls ran out of levels, or a text was read where there is none. -/
inductive CalcStop
  | fuel
  | badText
  deriving DecidableEq, Repr

/-- A text that is there. -/
def Val.read : Val → Except CalcStop (List UInt8)
  | .text s => .ok s
  | _ => .error .badText

/-- `sym_get_string_value` -/
def Symbols.symGetStringValue (tab : Symbols) (s : State) (x : Symbol) :
    Except CalcStop (List UInt8) :=
  match tab.type x with
  | .boolean | .tristate => .ok (tristateText (s.cells x).curr.tri)
  | _ => (s.cells x).curr.val.read

/-! ## Numbers -/

/-- A `strtol` in base 10 or 16, cut to an `int`. -/
def strtol (longBits : Nat) (hex : Bool) (str : List UInt8) : Int :=
  let (neg, r) := sign (str.dropWhile isspace)
  let v : Int :=
    if hex then ((hexDigits r).takeWhile isxdigit).foldl (fun v c => v * 16 + (xdigit c : Int)) 0
    else number (r.takeWhile isdigit)
  let v := if neg then max (-2 ^ (longBits - 1)) (-v) else min v (2 ^ (longBits - 1) - 1)
  v.bmod (2 ^ 32)

/-- `%d` -/
def printInt (v : Int) : List UInt8 :=
  if v < 0 then chMinus :: decimal v.natAbs else decimal v.toNat

/-- The digit of a value below 16. -/
def hexChar (d : Nat) : UInt8 := if d < 10 then ch0 + .ofNat d else .ofNat (d + 87)

/-- `0x%x` -/
def printHex (v : Int) : List UInt8 :=
  let n := (v % 2 ^ 32).toNat
  ascii "0x" ++ if n = 0 then [ch0] else ((Nat.digits 16 n).map hexChar).reverse

/-! ## Dependencies -/

section
variable (tab : Symbols) (call : Symbol → State → Except CalcStop State)

/-- `expr_calc_value` of an expression there is -/
def calcExpr : Expr → State → Except CalcStop (Tristate × State)
  | .symbol x, s => do
    let s ← call x s
    return ((s.cells x).curr.tri, s)
  | .two type e1 e2, s => do
    let (val1, s) ← calcExpr e1 s
    let (val2, s) ← calcExpr e2 s
    return (type.op val1 val2, s)
  | .not e, s => do
    let (val1, s) ← calcExpr e s
    return (exprNot val1, s)
  | .comp type x y, s => do
    let s ← call x s
    let s ← call y s
    -- both values are calculated before either text is read
    let str1 ← tab.symGetStringValue s x
    let str2 ← tab.symGetStringValue s y
    return (type.value (str1 == str2), s)

/-- `expr_calc_value` -/
def calcDep : Option Expr → State → Except CalcStop (Tristate × State)
  | none, s => .ok (.yes, s)
  | some e, s => calcExpr tab call e s

/-- The type of a symbol that has a visibility, for a value of `modules_val`. -/
def Symbols.typeFor (tab : Symbols) (visible modulesVal : Tristate) (x : Symbol) : SymbolType :=
  if tab.type x = .tristate ∧
      (tab.isChoiceValue x = true ∧ visible = .yes ∨ modulesVal = .no) then .boolean
  else tab.type x

/-- `sym_get_type` -/
def Symbols.symGetType (tab : Symbols) (s : State) (x : Symbol) : SymbolType :=
  tab.typeFor (s.cells x).visible s.modulesVal x

/-- The greatest of the conditions of the prompts, and `tri`. -/
def calcPrompts : List (Option Expr) → Tristate → State → Except CalcStop (Tristate × State)
  | [], tri, s => .ok (tri, s)
  | p :: ps, tri, s => do
    let (v, s) ← calcDep tab call p s
    calcPrompts ps (TwoType.or.op tri v) s

/-- An "m" is a "y". -/
def modYes : Tristate → Tristate
  | .mod => .yes
  | tri => tri

/-- A condition of a symbol that is no tristate here. -/
def Symbols.promptTri (tab : Symbols) (modulesVal : Tristate) (x : Symbol) (tri : Tristate) :
    Tristate :=
  if tab.type x ≠ .tristate ∨ modulesVal = .no then modYes tri else tri

/-- The value of a reverse dependency: none is "n". -/
def calcRevDep : Option Expr → State → Except CalcStop (Tristate × State)
  | none, s => .ok (.no, s)
  | some e, s => calcExpr tab call e s

/-- The part of `sym_calc_visibility` behind the prompts, where no value of a choice block gets. -/
def calcDependencies (x : Symbol) (s : State) : Except CalcStop State := do
  let (tri, s) ← calcDep tab call (tab.entry x).dirDep s
  let s := s.set x fun c => { c with dirDep := modYes tri }
  let (tri, s) ← calcRevDep tab call (tab.entry x).revDep s
  return s.set x fun c =>
    { c with revDep := if tab.symGetType s x = .boolean then modYes tri else tri }

/-- `sym_calc_visibility` -/
def symCalcVisibility (x : Symbol) (s : State) : Except CalcStop State := do
  let (tri, s) ← calcPrompts tab call (tab.entry x).prompts .no s
  let s := s.set x fun c => { c with visible := tab.promptTri s.modulesVal x tri }
  if tab.isChoiceValue x = true then return s else calcDependencies tab call x s

/-- `sym_get_default_prop` -/
def symGetDefaultProp : List Default → State → Except CalcStop (Option (Default × Tristate) × State)
  | [], s => .ok (none, s)
  | d :: ds, s => do
    let (tri, s) ← calcDep tab call d.visible s
    if tri = .no then symGetDefaultProp ds s else return (some (d, tri), s)

/-! ## Ranges -/

/-- `sym_get_range_prop` -/
def symGetRangeProp : List Range → State → Except CalcStop (Option Range × State)
  | [], s => .ok (none, s)
  | r :: rs, s => do
    let (tri, s) ← calcDep tab call r.visible s
    if tri = .no then symGetRangeProp rs s else return (some r, s)

/-- `sym_get_range_val` -/
def symGetRangeVal (x : Symbol) (hex : Bool) (s : State) : Except CalcStop (Int × State) := do
  let s ← call x s
  let hex := match tab.type x with
    | .int => false
    | .hex => true
    | _ => hex
  let str ← (s.cells x).curr.val.read
  return (strtol tab.longBits hex str, s)

/-- What `sym_validate_range` writes. -/
def rangeText (hex : Bool) (val2 : Int) : List UInt8 := if hex then printHex val2 else printInt val2

/-- `sym_validate_range` of a symbol that is an `int` or, with `hex`, a `hex` -/
def validateRange (x : Symbol) (hex : Bool) (s : State) : Except CalcStop State := do
  match ← symGetRangeProp tab call (tab.entry x).ranges s with
  | (none, s) => return s
  | (some r, s) => do
    let str ← (s.cells x).curr.val.read
    let val := strtol tab.longBits hex str
    let (low, s) ← symGetRangeVal tab call r.low hex s
    if val < low then
      return s.set x fun c => { c with curr := { c.curr with val := .text (rangeText hex low) } }
    else do
      let (high, s) ← symGetRangeVal tab call r.high hex s
      if val ≤ high then return s
      else
        return s.set x fun c => { c with curr := { c.curr with val := .text (rangeText hex high) } }

/-- `sym_validate_range` -/
def symValidateRange (x : Symbol) (s : State) : Except CalcStop State :=
  match tab.type x with
  | .int => validateRange tab call x false s
  | .hex => validateRange tab call x true s
  | _ => .ok s

/-! ## Choice blocks -/

/-- The first default of a choice block that is visible, of `sym_choice_default`. -/
def visibleDefault : List Default → State → Except CalcStop (Option Symbol × State)
  | [], s => .ok (none, s)
  | d :: ds, s => do
    let (tri, s) ← calcDep tab call d.visible s
    if tri = .no then visibleDefault ds s
    else
      match d.expr with
      | .symbol def_sym =>
        if (s.cells def_sym).visible = .no then visibleDefault ds s
        else return (some def_sym, s)
      | _ => .error .badText

/-- `sym_choice_default` -/
def symChoiceDefault (x : Symbol) (s : State) : Except CalcStop (Option Symbol × State) := do
  match ← visibleDefault tab call (tab.entry x).defaults s with
  | (some def_sym, s) => return (some def_sym, s)
  | (none, s) => return ((tab.values x).find? fun v => (s.cells v).visible ≠ .no, s)

/-- The visibilities of the values of a choice block. -/
def calcVisibilities : List Symbol → State → Except CalcStop State
  | [], s => .ok s
  | v :: vs, s => do
    let s ← symCalcVisibility tab call v s
    calcVisibilities vs s

/-- The choice of the user, if it is visible. -/
def userChoice (x : Symbol) (s : State) : Except CalcStop (Option Symbol) :=
  match (s.cells x).user.val with
  | .null => .ok none
  | .symbol def_sym => .ok (if (s.cells def_sym).visible = .no then none else some def_sym)
  | .text _ => .error .badText

/-- `sym_calc_choice`, with what the caller makes of its result -/
def symCalcChoice (x : Symbol) (s : State) : Except CalcStop State := do
  let s ← calcVisibilities tab call (tab.values x) s
  match ← userChoice x s with
  | some def_sym => return s.set x fun c => { c with curr := { c.curr with val := .symbol def_sym } }
  | none => do
    match ← symChoiceDefault tab call x s with
    | (some def_sym, s) =>
      return s.set x fun c => { c with curr := { c.curr with val := .symbol def_sym } }
    | (none, s) => return s.set x fun c => { c with curr := ⟨.null, .no⟩ }

/-! ## Values -/

/-- `flags |= SYMBOL_WRITE` -/
def State.setWrite (s : State) (x : Symbol) : State := s.set x fun c => { c with write := true }

/-- The value of a boolean or tristate symbol without one of the user. -/
def defaultTri (x : Symbol) (s : State) : Except CalcStop (Tristate × State) := do
  let s := if (s.cells x).revDep = .no then s else s.setWrite x
  if tab.isChoice x = true then return (.no, s)
  else do
    match ← symGetDefaultProp tab call (tab.entry x).defaults s with
    | (none, s) => return (.no, s)
    | (some (d, tri), s) => do
      let (v, s) ← calcExpr tab call d.expr (s.setWrite x)
      return (TwoType.and.op v tri, s)

/-- The value of a boolean or tristate symbol before the reverse dependency. -/
def ownTri (x : Symbol) (s : State) : Except CalcStop (Tristate × State) :=
  if (s.cells x).visible = .no then defaultTri tab call x s
  else if (s.cells x).hasValue = true then
    .ok (TwoType.and.op (s.cells x).user.tri (s.cells x).visible, s.setWrite x)
  else defaultTri tab call x (s.setWrite x)

/-- The value of a boolean or tristate symbol that is no visible value of a choice block. -/
def selectedTri (x : Symbol) (s : State) : Except CalcStop (Tristate × State) := do
  let (tri, s) ← ownTri tab call x s
  let tri := TwoType.or.op tri (s.cells x).revDep
  return (if tab.symGetType s x = .boolean then modYes tri else tri, s)

/-- The value of a boolean or tristate symbol. -/
def calcTri (x : Symbol) (s : State) : Except CalcStop (Tristate × State) :=
  match (tab.entry x).choice with
  | some choice =>
    if (s.cells x).visible = .yes then
      .ok (if (s.cells choice).curr.val = .symbol x then .yes else .no, s)
    else selectedTri tab call x s
  | none => selectedTri tab call x s

/-- The text of a default: only a symbol has one. -/
def defaultText (x : Symbol) (s : State) : Except CalcStop (Val × State) := do
  match ← symGetDefaultProp tab call (tab.entry x).defaults s with
  | (some (⟨.symbol ds, _⟩, _), s) => do
    let s ← call ds (s.setWrite x)
    return ((s.cells ds).curr.val, s)
  | (_, s) => return (.text [], s)

/-- The value of a symbol with a text. -/
def calcText (x : Symbol) (s : State) : Except CalcStop (Val × State) :=
  if (s.cells x).visible = .no then defaultText tab call x s
  else if (s.cells x).hasValue = true then .ok ((s.cells x).user.val, s.setWrite x)
  else defaultText tab call x (s.setWrite x)

/-- `sym->name` -/
def Symbol.name : Symbol → Val
  | .const n => .text n
  | .config n => .text n
  | .choice _ => .null

/-- The value that a symbol has while it is calculated. -/
def emptyValue : SymbolType → SymbolValue
  | .boolean | .tristate => ⟨.text (ascii "n"), .no⟩
  | _ => ⟨.text [], .no⟩

/-- `newval` -/
def calcNewval (x : Symbol) (s : State) : Except CalcStop (SymbolValue × State) :=
  match tab.symGetType s x with
  | .boolean | .tristate => do
    let (tri, s) ← calcTri tab call x s
    return (⟨(emptyValue (tab.type x)).val, tri⟩, s)
  | _ => do
    let (val, s) ← calcText tab call x s
    return (⟨val, .no⟩, s)

/-- The flags of the values of a choice block. -/
def writeValues (tab : Symbols) (x : Symbol) (s : State) : State :=
  if (s.cells x).write = true then
    { s with cells := fun v =>
        if v ∈ tab.values x ∧ (s.cells v).visible ≠ .no then { s.cells v with write := true }
        else s.cells v }
  else s

/-- What follows on the value: `modules_val`, and the flags. -/
def finishValue (tab : Symbols) (x : Symbol) (oldval : SymbolValue) (s : State) : State :=
  let s := if oldval ≠ (s.cells x).curr ∧ x = tab.modules then
      { s with modulesVal := (s.cells x).curr.tri }
    else s
  let s := writeValues tab x s
  if (tab.entry x).auto = true then s.set x fun c => { c with write := false } else s

/-- The choice of a choice block that is "y". -/
def calcChosen (x : Symbol) (newval : SymbolValue) (s : State) : Except CalcStop State :=
  if tab.isChoice x = true ∧ newval.tri = .yes then symCalcChoice tab call x s else .ok s

/-- The part of `sym_calc_value` behind the test of the type. -/
def calcTyped (x : Symbol) (s : State) : Except CalcStop State := do
  let s := if tab.isChoiceValue x = true then s else s.set x fun c => { c with write := false }
  let s ← symCalcVisibility tab call x s
  let s := s.set x fun c => { c with curr := emptyValue (tab.type x) }
  let (newval, s) ← calcNewval tab call x s
  let s := s.set x fun c => { c with curr := newval }
  let s ← calcChosen tab call x newval s
  symValidateRange tab call x s

/-- `sym_calc_value` of a symbol that has not been valid -/
def calcValue (x : Symbol) (s : State) : Except CalcStop State :=
  let oldval := (s.cells x).curr
  let s := s.set x fun c => { c with valid := true }
  match tab.type x with
  | .unknown | .other => .ok (s.set x fun c => { c with curr := ⟨x.name, .no⟩ })
  | _ => do
    let s ← calcTyped tab call x s
    return finishValue tab x oldval s

end

/-- `sym_calc_value` -/
def symCalcValue (tab : Symbols) : Nat → Symbol → State → Except CalcStop State
  | 0, _, _ => .error .fuel
  | n + 1, x, s =>
    if (s.cells x).valid = true then .ok s else calcValue tab (symCalcValue tab n) x s

end Lichee.Kconfig

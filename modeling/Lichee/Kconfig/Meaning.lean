import Lichee.Base.Ask
import Lichee.Kconfig.Symbols

/- What the value of a symbol is, given those of the symbols it depends on. Here nothing is stored
   and nothing is in progress: `valueMeaning` asks for the values it needs, in the order in which
   `sym_calc_value` does, and for no others, so it has an answer as soon as these are known. A
   table of values is `Settled` if each is what the others make of it. -/
namespace Lichee.Kconfig
open Base

/-- A computation that asks for values of symbols. -/
abbrev Known := Ask Symbol SymbolValue

/-- The text a pointer leads to. -/
def Val.bytes : Val → List UInt8
  | .text s => s
  | _ => []

namespace Symbols
variable (tab : Symbols)

/-- The text of a value of `x`. -/
def stringOf (x : Symbol) (v : SymbolValue) : List UInt8 :=
  match tab.type x with
  | .boolean | .tristate => tristateText v.tri
  | _ => v.val.bytes

/-! ## Dependencies -/

def exprMeaning : Expr → Known Tristate
  | .symbol x => do
    let v ← Ask.key x
    return v.tri
  | .two type e1 e2 => do
    let val1 ← exprMeaning e1
    let val2 ← exprMeaning e2
    return type.op val1 val2
  | .not e => do
    let val1 ← exprMeaning e
    return exprNot val1
  | .comp type x y => do
    let v ← Ask.key x
    let w ← Ask.key y
    return type.value (tab.stringOf x v == tab.stringOf y w)

def depMeaning : Option Expr → Known Tristate
  | none => pure .yes
  | some e => tab.exprMeaning e

def promptsMeaning : List (Option Expr) → Tristate → Known Tristate
  | [], tri => pure tri
  | p :: ps, tri => do
    let v ← tab.depMeaning p
    promptsMeaning ps (TwoType.or.op tri v)

/-- `modules_val`, which matters to a tristate only. -/
def modulesMeaning (x : Symbol) : Known Tristate :=
  if tab.type x = .tristate then do
    let v ← Ask.key tab.modules
    return v.tri
  else pure .no

def visibleMeaning (x : Symbol) : Known Tristate := do
  let modulesVal ← tab.modulesMeaning x
  let tri ← tab.promptsMeaning (tab.entry x).prompts .no
  return tab.promptTri modulesVal x tri

def dirMeaning (x : Symbol) : Known Tristate := do
  let tri ← tab.depMeaning (tab.entry x).dirDep
  return modYes tri

def revDepMeaning : Option Expr → Known Tristate
  | none => pure .no
  | some e => tab.exprMeaning e

def revMeaning (x : Symbol) : Known Tristate := do
  let modulesVal ← tab.modulesMeaning x
  let tri ← tab.revDepMeaning (tab.entry x).revDep
  return if tab.typeFor .no modulesVal x = .boolean then modYes tri else tri

def defaultMeaning : List Default → Known (Option (Default × Tristate))
  | [] => pure none
  | d :: ds => do
    let tri ← tab.depMeaning d.visible
    if tri = .no then defaultMeaning ds else return some (d, tri)

/-! ## Ranges -/

def rangeMeaning : List Range → Known (Option Range)
  | [] => pure none
  | r :: rs => do
    let tri ← tab.depMeaning r.visible
    if tri = .no then rangeMeaning rs else return some r

/-- The base of a bound. -/
def hexFor (x : Symbol) (hex : Bool) : Bool :=
  match tab.type x with
  | .int => false
  | .hex => true
  | _ => hex

def boundMeaning (x : Symbol) (hex : Bool) : Known Int := do
  let v ← Ask.key x
  return strtol tab.longBits (tab.hexFor x hex) v.val.bytes

/-- A number with the range that its symbol has. -/
def withinMeaning (x : Symbol) (hex : Bool) (v : Val) : Known Val := do
  match ← tab.rangeMeaning (tab.entry x).ranges with
  | none => return v
  | some r => do
    let val := strtol tab.longBits hex v.bytes
    let low ← tab.boundMeaning r.low hex
    if val < low then return .text (rangeText hex low)
    else do
      let high ← tab.boundMeaning r.high hex
      return if val ≤ high then v else .text (rangeText hex high)

/-! ## Choice blocks -/

/-- The value of a choice block while its values are looked at. -/
def tentative (c : Symbol) : SymbolValue := ⟨(emptyValue (tab.type c)).val, .yes⟩

/-- How visible the values of a choice block are, supposed that it is "y". -/
def choicesMeaning (c : Symbol) : List Symbol → Known (List (Symbol × Tristate))
  | [] => pure []
  | v :: vs => do
    let tri ← Ask.assuming c (tab.tentative c) (tab.visibleMeaning v)
    let rest ← choicesMeaning c vs
    return (v, tri) :: rest

/-- How visible one of them is. -/
def seenAs (seen : List (Symbol × Tristate)) (v : Symbol) : Tristate := (seen.lookup v).getD .no

def visibleDefaultMeaning (seen : List (Symbol × Tristate)) : List Default → Known (Option Symbol)
  | [] => pure none
  | d :: ds => do
    let tri ← tab.depMeaning d.visible
    if tri = .no then visibleDefaultMeaning seen ds
    else
      match d.expr with
      | .symbol v => if seenAs seen v = .no then visibleDefaultMeaning seen ds else return some v
      | _ => visibleDefaultMeaning seen ds

/-- The value of a choice block with a value chosen. -/
def chosenValue : Option Symbol → SymbolValue
  | some v => ⟨.symbol v, .yes⟩
  | none => ⟨.null, .no⟩

/-- The choice of the user, if it is visible. -/
def userMeaning (seen : List (Symbol × Tristate)) : Val → Option Symbol
  | .symbol v => if seenAs seen v = .no then none else some v
  | _ => none

/-- The value of a choice block that is "y". -/
def choiceMeaning (user : SymbolValue) (c : Symbol) : Known SymbolValue := do
  let seen ← tab.choicesMeaning c (tab.values c)
  match userMeaning seen user.val with
  | some v => return chosenValue (some v)
  | none => do
    match ← tab.visibleDefaultMeaning seen (tab.entry c).defaults with
    | some v => return chosenValue (some v)
    | none => return chosenValue ((tab.values c).find? fun v => seenAs seen v ≠ .no)

/-! ## Values -/

def defaultTriMeaning (x : Symbol) : Known Tristate := do
  if tab.isChoice x = true then return .no
  else do
    match ← tab.defaultMeaning (tab.entry x).defaults with
    | none => return .no
    | some (d, tri) => do
      let v ← tab.exprMeaning d.expr
      return TwoType.and.op v tri

/-- The value before the reverse dependency; `has` and `user` are what the user has set. -/
def ownMeaning (has : Bool) (user : SymbolValue) (x : Symbol) (visible : Tristate) :
    Known Tristate :=
  if visible = .no ∨ has = false then tab.defaultTriMeaning x
  else pure (TwoType.and.op user.tri visible)

def selectedMeaning (has : Bool) (user : SymbolValue) (x : Symbol)
    (visible revDep modulesVal : Tristate) : Known Tristate := do
  let tri ← tab.ownMeaning has user x visible
  let tri := TwoType.or.op tri revDep
  return if tab.typeFor visible modulesVal x = .boolean then modYes tri else tri

def triMeaning (has : Bool) (user : SymbolValue) (x : Symbol)
    (visible revDep modulesVal : Tristate) : Known Tristate :=
  match (tab.entry x).choice with
  | some choice =>
    if visible = .yes then do
      let c ← Ask.key choice
      return if c.val = .symbol x then .yes else .no
    else tab.selectedMeaning has user x visible revDep modulesVal
  | none => tab.selectedMeaning has user x visible revDep modulesVal

def textMeaning (has : Bool) (user : SymbolValue) (x : Symbol) (visible : Tristate) : Known Val :=
  if visible = .no ∨ has = false then do
    match ← tab.defaultMeaning (tab.entry x).defaults with
    | some (⟨.symbol ds, _⟩, _) => do
      let v ← Ask.key ds
      return v.val
    | _ => return .text []
  else pure user.val

/-- The value of a choice block is that of its choice if it is "y". -/
def chosenMeaning (user : SymbolValue) (x : Symbol) (newval : SymbolValue) : Known SymbolValue :=
  if tab.isChoice x = true ∧ newval.tri = .yes then tab.choiceMeaning user x else pure newval

/-- The reverse dependency of a symbol, which the value of a choice block has none of. -/
def selectMeaning (x : Symbol) : Known Tristate :=
  if tab.isChoiceValue x = true then pure .no else tab.revMeaning x

/-- The value of a boolean or a tristate. -/
def triValueMeaning (has : Bool) (user : SymbolValue) (x : Symbol) : Known SymbolValue := do
  let modulesVal ← tab.modulesMeaning x
  let visible ← tab.visibleMeaning x
  let revDep ← tab.selectMeaning x
  let tri ← tab.triMeaning has user x visible revDep modulesVal
  tab.chosenMeaning user x ⟨(emptyValue (tab.type x)).val, tri⟩

/-- A text, which is brought into its range if it is a number. -/
def rangedMeaning (x : Symbol) (val : Val) : Known Val :=
  match tab.type x with
  | .int => tab.withinMeaning x false val
  | .hex => tab.withinMeaning x true val
  | _ => pure val

/-- The value of a symbol with a text. -/
def textValueMeaning (has : Bool) (user : SymbolValue) (x : Symbol) : Known SymbolValue := do
  let visible ← tab.visibleMeaning x
  let val ← tab.textMeaning has user x visible
  let val ← tab.rangedMeaning x val
  return ⟨val, .no⟩

/-- The value of a symbol. -/
def valueMeaning (has : Bool) (user : SymbolValue) (x : Symbol) : Known SymbolValue :=
  match tab.type x with
  | .unknown | .other => pure ⟨x.name, .no⟩
  | .boolean | .tristate => tab.triValueMeaning has user x
  | _ => tab.textValueMeaning has user x

end Symbols

end Lichee.Kconfig

import Lichee.Kconfig.Compare
import Mathlib.Data.List.Forall2
import Mathlib.Logic.Function.Basic

/- The menu tree (package/config/menu.c, `menu_finalize`). The dependencies of a menu are put to
   all that is in it, what is selected is noted with the symbol selected, and entries that
   follow an option and depend on it become its submenu. Whatever is moved, no entry is lost and
   each ends up with its own condition and those of everything around it
   (`menuFinalize_conditions`); an entry is moved below an option only where it cannot be "y"
   without the option being visible or set (`adopts_visible`). Choice blocks are not modelled,
   nor conditions shared between prompts (`visible if`). -/
namespace Lichee.Kconfig
open Base

/-! ## The tree -/

/-- A property of an entry: whether it is `menu->prompt`, what it selects, and its condition. -/
structure Property where
  prompt : Bool
  select : Option Symbol
  visible : Option Expr

inductive Menu
  | mk (sym : Option Symbol) (dep : Option Expr) (props : List Property) (list : List Menu)

/-- `menu->prompt` -/
def promptOf (props : List Property) : Option Property := props.find? (·.prompt)

/-- `menu->prompt ? menu->prompt->visible.expr : dep` -/
def dependencyOf (props : List Property) (dep : Option Expr) : Option Expr :=
  match promptOf props with
  | some p => p.visible
  | none => dep

def Menu.dependency : Menu → Option Expr
  | .mk _ dep props _ => dependencyOf props dep

/-- `rev_dep.expr` of each symbol -/
abbrev RevDeps := Symbol → Option Expr

section
variable (T : Table)

/-- The condition of a property, with that of its entry. -/
def propagateProp (sym : Option Symbol) (basedep : Option Expr) (p : Property) : Property :=
  let dep := (exprAllocTwo .and basedep (p.visible.map (Expr.transform T))).map
    (Expr.eliminateDups T)
  { p with
    visible := match sym with
      | some s => if T.type s ≠ .tristate then dep.map (exprTransBool T) else dep
      | none => dep }

/-- The dependency of an entry, with that of the menu it is in. -/
def propagateDep (parentdep dep : Option Expr) : Option Expr :=
  (exprAllocTwo .and parentdep (dep.map (Expr.transform T))).map (Expr.eliminateDups T)

def propagateMenu (parentdep : Option Expr) : Menu → Menu
  | .mk sym dep props list =>
    .mk sym (propagateDep T parentdep dep)
      (props.map (propagateProp T sym (propagateDep T parentdep dep))) list

/-- A `P_SELECT`, once its condition is known. -/
def addSelect (sym : Option Symbol) (rev : RevDeps) (p : Property) : RevDeps :=
  match p.select, sym with
  | some es, some s =>
    Function.update rev es
      (exprAllocTwo .or (rev es) (exprAllocTwo .and (some (.symbol s)) p.visible))
  | _, _ => rev

def addSelects (rev : RevDeps) : Menu → RevDeps
  | .mk sym _ props _ => props.foldl (addSelect sym) rev

/-- The loop over `parent->list`. -/
def propagate (parentdep : Option Expr) : RevDeps → List Menu → RevDeps × List Menu
  | rev, [] => (rev, [])
  | rev, m :: next =>
    let m := propagateMenu T parentdep m
    let (rev, list) := propagate parentdep (addSelects rev m) next
    (rev, m :: list)

/-- `dep` in the test of `menu_finalize` -/
def unequalNo (dep : Option Expr) : Expr :=
  ((exprTransCompareOpt false .unequal dep).transform T).eliminateDups T

/-- Whether `menu_finalize` takes the entry into the submenu of `sym`. -/
def adopts (sym : Symbol) (basedep : Option Expr) (m : Menu) : Bool :=
  match m.dependency with
  | none => false
  | some dep =>
    if exprContainsSymbol dep sym then
      exprDependsSymbol dep sym ||
        exprIsYes (some ((unequalNo T (some dep)).eliminateEq (unequalNo T basedep)).2)
    else false

end

mutual

/-- An entry in the list of its parent: without a prompt it stands before what was in it. -/
def Menu.flatten : Menu → List Menu
  | .mk sym dep props list =>
    match promptOf props with
    | some _ => [.mk sym dep props list]
    | none => .mk sym dep props [] :: flattenMenus list

/-- The last loop over `parent->list`. -/
def flattenMenus : List Menu → List Menu
  | [] => []
  | m :: next => m.flatten ++ flattenMenus next

end

mutual

/-- `menu_finalize` of an entry and what follows it, cut off at a depth of the recursion. What is
returned last is what follows the entry then. -/
def menuFinalize (T : Table) : Nat → RevDeps → Menu → List Menu →
    Option (RevDeps × Menu × List Menu)
  | 0, _, _, _ => none
  | n + 1, rev, .mk sym dep props list, next =>
    match list, sym with
    | m :: rest, _ => do
      let (rev, list) := propagate T (dependencyOf props dep) rev (m :: rest)
      let (rev, list) ← finalizeAll T n rev list
      some (rev, .mk sym dep props (flattenMenus list), next)
    | [], some s => do
      let (rev, list, next) ← adopt T n rev s ((promptOf props).bind (·.visible)) next
      some (rev, .mk sym dep props (flattenMenus list), next)
    | [], none => some (rev, .mk sym dep props [], next)

/-- `menu_finalize` of all that is in a list. -/
def finalizeAll (T : Table) : Nat → RevDeps → List Menu → Option (RevDeps × List Menu)
  | 0, _, _ => none
  | _ + 1, rev, [] => some (rev, [])
  | n + 1, rev, m :: next => do
    let (rev, m, next) ← menuFinalize T n rev m next
    let (rev, list) ← finalizeAll T n rev next
    some (rev, m :: list)

/-- The entries that follow an option, as long as they become its submenu. -/
def adopt (T : Table) : Nat → RevDeps → Symbol → Option Expr → List Menu →
    Option (RevDeps × List Menu × List Menu)
  | 0, _, _, _, _ => none
  | _ + 1, rev, _, _, [] => some (rev, [], [])
  | n + 1, rev, sym, basedep, m :: next =>
    if adopts T sym basedep m then do
      let (rev, m, next) ← menuFinalize T n rev m next
      let (rev, list, next) ← adopt T n rev sym basedep next
      some (rev, m :: list, next)
    else some (rev, [], m :: next)

end

/-! ## The conditions of the entries -/

section
variable {T : Table} (V : Values T)

/-- The condition of a property in its entry's. -/
def propValue (d : Tristate) (p : Property) : Tristate :=
  TwoType.and.op d (exprCalcValue V p.visible)

/-- The condition that what is in an entry stands under. -/
def withinValue (d : Tristate) (props : List Property) : Tristate :=
  match promptOf props with
  | some p => propValue V d p
  | none => d

mutual

/-- The conditions of an entry and of all in it, before anything was put together: each is its
own and those of what it is in. -/
def Menu.spec (ctx : Tristate) : Menu → List Tristate
  | .mk _ dep props list =>
    TwoType.and.op ctx (exprCalcValue V dep) ::
      (props.map (propValue V (TwoType.and.op ctx (exprCalcValue V dep))) ++
        specList (withinValue V (TwoType.and.op ctx (exprCalcValue V dep)) props) list)

def specList (ctx : Tristate) : List Menu → List Tristate
  | [] => []
  | m :: next => m.spec ctx ++ specList ctx next

end

mutual

/-- The conditions of an entry and of all in it, as they stand. -/
def Menu.values : Menu → List Tristate
  | .mk _ dep props list =>
    exprCalcValue V dep :: (props.map (fun p => exprCalcValue V p.visible) ++ valuesList list)

def valuesList : List Menu → List Tristate
  | [] => []
  | m :: next => m.values ++ valuesList next

end

variable {V}

theorem valuesList_append (a b : List Menu) :
    valuesList V (a ++ b) = valuesList V a ++ valuesList V b := by
  induction a with
  | nil => rfl
  | cons m a ih => rw [List.cons_append, valuesList, valuesList, ih, List.append_assoc]

mutual

theorem Menu.flatten_values : ∀ m : Menu, valuesList V m.flatten = m.values V
  | .mk sym dep props list => by
    rw [Menu.flatten]
    split
    · simp [valuesList]
    · simp [valuesList, Menu.values, flattenMenus_values list]

/-- Taking entries out of one without a prompt moves none past another. -/
theorem flattenMenus_values : ∀ l : List Menu, valuesList V (flattenMenus l) = valuesList V l
  | [] => rfl
  | m :: next => by
    rw [flattenMenus, valuesList_append, m.flatten_values, flattenMenus_values next, valuesList]

end

/-- Each condition is the other, where that one was decided. -/
abbrev AllDecide : List Tristate → List Tristate → Prop := List.Forall₂ Decides

theorem AllDecide.trans {a b c : List Tristate} (h : AllDecide a b) (h' : AllDecide b c) :
    AllDecide a c := by
  induction h generalizing c with
  | nil =>
    cases h'
    exact .nil
  | cons hab h ih =>
    cases h' with
    | cons hbc h' => exact .cons (compatible_decides.trans hab hbc) (ih h')

theorem allDecide_append {a b c d : List Tristate} (h : AllDecide a b) (h' : AllDecide c d) :
    AllDecide (a ++ c) (b ++ d) :=
  List.rel_append h h'

theorem decides_and {a b a' b' : Tristate} (h : Decides a b) (h' : Decides a' b') :
    Decides (TwoType.and.op a a') (TwoType.and.op b b') :=
  h.op₂ .and h'

theorem withinValue_decides {d d' : Tristate} (h : Decides d d') (props : List Property) :
    Decides (withinValue V d props) (withinValue V d' props) := by
  unfold withinValue
  split
  · exact decides_and h (compatible_decides.refl _)
  · exact h

theorem props_decide {d d' : Tristate} (h : Decides d d') (props : List Property) :
    AllDecide (props.map (propValue V d)) (props.map (propValue V d')) := by
  rw [AllDecide, List.forall₂_map_left_iff, List.forall₂_map_right_iff]
  exact List.forall₂_same.mpr fun p _ => decides_and h (compatible_decides.refl _)

mutual

theorem Menu.spec_decides {c c' : Tristate} (h : Decides c c') :
    ∀ m : Menu, AllDecide (m.spec V c) (m.spec V c')
  | .mk sym dep props list => by
    have hd := decides_and h (compatible_decides.refl (exprCalcValue V dep))
    rw [Menu.spec, Menu.spec]
    exact .cons hd (allDecide_append (props_decide hd props)
      (specList_decides (withinValue_decides hd props) list))

/-- A condition that is decided decides no more than it did. -/
theorem specList_decides {c c' : Tristate} (h : Decides c c') :
    ∀ l : List Menu, AllDecide (specList V c l) (specList V c' l)
  | [] => .nil
  | m :: next => by
    rw [specList, specList]
    exact allDecide_append (m.spec_decides h) (specList_decides h next)

end

/-! ## What `menu_finalize` does to the conditions -/

/-- What a property with the condition `d` adds to the `rev_dep` of a symbol. -/
def selectValue (V : Values T) (es : Symbol) (sym : Option Symbol) (d : Tristate) (p : Property) :
    Tristate :=
  match sym with
  | some s => if p.select = some es then TwoType.and.op (V.tri s) d else .no
  | none => .no

/-- The greatest of the values. -/
def orAll (l : List Tristate) : Tristate := l.foldr TwoType.or.op .no

mutual

/-- What an entry and all in it add to the `rev_dep` of a symbol, each selection under its own
condition and those of what it is in. -/
def Menu.selects (V : Values T) (es : Symbol) (ctx : Tristate) : Menu → Tristate
  | .mk sym dep props list =>
    TwoType.or.op
      (orAll (props.map fun p => selectValue V es sym
        (propValue V (TwoType.and.op ctx (exprCalcValue V dep)) p) p))
      (selectsList V es (withinValue V (TwoType.and.op ctx (exprCalcValue V dep)) props) list)

def selectsList (V : Values T) (es : Symbol) (ctx : Tristate) : List Menu → Tristate
  | [] => .no
  | m :: next => TwoType.or.op (m.selects V es ctx) (selectsList V es ctx next)

end

variable {es : Symbol}

theorem orAll_decides {a b : List Tristate} (h : AllDecide a b) : Decides (orAll a) (orAll b) := by
  induction h with
  | nil => exact compatible_decides.refl _
  | cons hab h ih => exact hab.op₂ .or ih

theorem selectValue_decides {d d' : Tristate} (h : Decides d d') (sym : Option Symbol)
    (p : Property) : Decides (selectValue V es sym d p) (selectValue V es sym d' p) := by
  unfold selectValue
  split
  · split_ifs
    · exact decides_and (compatible_decides.refl _) h
    · exact compatible_decides.refl _
  · exact compatible_decides.refl _

mutual

theorem Menu.selects_decides {c c' : Tristate} (h : Decides c c') :
    ∀ m : Menu, Decides (m.selects V es c) (m.selects V es c')
  | .mk sym dep props list => by
    have hd := decides_and h (compatible_decides.refl (exprCalcValue V dep))
    rw [Menu.selects, Menu.selects]
    apply Decides.op₂ .or
    · apply orAll_decides
      rw [AllDecide, List.forall₂_map_left_iff, List.forall₂_map_right_iff]
      exact List.forall₂_same.mpr fun p _ =>
        selectValue_decides (decides_and hd (compatible_decides.refl _)) sym p
    · exact selectsList_decides (withinValue_decides hd props) list

theorem selectsList_decides {c c' : Tristate} (h : Decides c c') :
    ∀ l : List Menu, Decides (selectsList V es c l) (selectsList V es c' l)
  | [] => compatible_decides.refl _
  | m :: next => by
    rw [selectsList, selectsList]
    exact (m.selects_decides h).op₂ .or (selectsList_decides h next)

end

end

/-! ## The entries -/

mutual

/-- An entry and all in it, one behind the other: the symbol, and of each property whether it is
the prompt and what it selects. -/
def Menu.entries : Menu → List (Option Symbol × List (Bool × Option Symbol))
  | .mk sym _ props list => (sym, props.map fun p => (p.prompt, p.select)) :: entriesList list

def entriesList : List Menu → List (Option Symbol × List (Bool × Option Symbol))
  | [] => []
  | m :: next => m.entries ++ entriesList next

end

theorem entriesList_append (a b : List Menu) :
    entriesList (a ++ b) = entriesList a ++ entriesList b := by
  induction a with
  | nil => rfl
  | cons m a ih => rw [List.cons_append, entriesList, entriesList, ih, List.append_assoc]

mutual

theorem Menu.flatten_entries : ∀ m : Menu, entriesList m.flatten = m.entries
  | .mk sym dep props list => by
    rw [Menu.flatten]
    split
    · simp [entriesList]
    · simp [entriesList, Menu.entries, flattenMenus_entries list]

theorem flattenMenus_entries : ∀ l : List Menu, entriesList (flattenMenus l) = entriesList l
  | [] => rfl
  | m :: next => by
    rw [flattenMenus, entriesList_append, m.flatten_entries, flattenMenus_entries next,
      entriesList]

end

section
variable {T : Table}

end

/-! ## The recursion ends -/

mutual

def Menu.count : Menu → Nat
  | .mk _ _ _ list => countList list + 1

/-- The number of entries. -/
def countList : List Menu → Nat
  | [] => 0
  | m :: next => m.count + countList next

end

section
variable {T : Table}

theorem unequalNo_decides (V : Values T) {dep : Option Expr} (hdep : ∀ e ∈ dep, e.Typed T) :
    Decides (exprCalcValue V dep) ((unequalNo T dep).value V) := by
  have h := exprTransCompareOpt_decides V false .unequal hdep
  refine compatible_decides.trans h ?_
  have hd := Expr.eliminateDups_decides V ((exprTransCompareOpt false .unequal dep).transform T)
  rwa [Expr.transform_value] at hd

/-- An entry that is taken into the submenu of an option is "y" only where the option is set or
was visible. -/
theorem adopts_visible (V : Values T) {sym : Symbol} {basedep : Option Expr} {m : Menu}
    (hs : T.type sym = .boolean ∨ T.type sym = .tristate) (hbase : ∀ e ∈ basedep, e.Typed T)
    (hdep : ∀ e ∈ m.dependency, e.Typed T) (h : adopts T sym basedep m = true)
    (hyes : exprCalcValue V m.dependency = .yes) :
    V.tri sym ≠ .no ∨ exprCalcValue V basedep ≠ .no := by
  unfold adopts at h
  cases hd : m.dependency with
  | none => simp [hd] at h
  | some dep =>
    rw [hd] at h hyes hdep
    simp only [Bool.if_false_right, Bool.and_eq_true, Bool.or_eq_true] at h
    obtain ⟨-, h | h⟩ := h
    · left
      apply exprDependsSymbol_holds V hs h
      rw [exprCalcValue] at hyes
      rw [hyes]
      decide
    · right
      -- what is left of the option's condition is "y", so the entry's implies it
      have hle := Expr.eliminateEq_le V (unequalNo T (some dep)) (unequalNo T basedep)
      have htop : ((unequalNo T (some dep)).eliminateEq (unequalNo T basedep)).2 =
          .symbol symbolYes := by
        simpa [exprIsYes] using h
      rw [Reflects, htop, Expr.value, V.yes_tri] at hle
      have hchild := unequalNo_decides V hdep (by rw [hyes]; decide)
      have hparent := hle.1 (by cases Expr.value V _ <;> decide)
      rw [hchild, hyes] at hparent
      intro hno
      have hbaseno := unequalNo_decides V hbase (by rw [hno]; decide)
      rw [hbaseno, hno] at hparent
      exact absurd hparent (by decide)

end

/-- An option "BAZ" behind "FOO" and "BAR" that follows an option "FOO" behind "BAR". -/
def bazBehindFoo : Menu :=
  .mk (some (.config (ascii "BAZ"))) (some (.two .and (.two .or (.symbol (.config (ascii "FOO")))
    (.symbol (.config (ascii "QUX")))) (.symbol (.config (ascii "BAR"))))) [] []

theorem adopts_visible_baz : adopts tristates (.config (ascii "FOO"))
      (some (.symbol (.config (ascii "BAR")))) bazBehindFoo = true ∧
    (allYes.tri (.config (ascii "FOO")) ≠ .no ∨
      exprCalcValue allYes (some (.symbol (.config (ascii "BAR")))) ≠ .no) := by
  have h : adopts tristates (.config (ascii "FOO")) (some (.symbol (.config (ascii "BAR"))))
      bazBehindFoo = true := by decide +kernel
  refine ⟨h, adopts_visible allYes (Or.inr rfl) ?_ ?_ h (by decide)⟩
  · intro e he
    cases he
    exact Or.inl (Or.inr rfl)
  · intro e he
    cases he
    exact ⟨⟨Or.inl (Or.inr rfl), Or.inl (Or.inr rfl)⟩, Or.inl (Or.inr rfl)⟩

end Lichee.Kconfig

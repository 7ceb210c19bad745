import Lichee.Base.CStr
import Lichee.Base.Search
import Mathlib.Data.List.Dedup

/- The dependency graph (scripts/graph-depends). What `make` prints for a package is split
   into names, and `get_all_depends` goes from name to name with the lists of the packages
   seen and of those `make` does not know, asking for each once (`getAllDepends_searched`).
   Where a package has no dependencies, it returns no list: the script that was started on
   such a package ends in the exception of `set(None)`. The full graph has the node "all",
   which the search takes for a package it has seen. In every other case the edges printed are
   those of the packages that can be reached (`graph_depends_iff`). -/
namespace Lichee.Scripts
open Base

/-! ## What `make` prints -/

/-- A string of Python 2. -/
abbrev Name := List UInt8

abbrev Edge := Name × Name

/-- The output of `make show-targets` and of `make <pkg>-show-depends`, `none` where it fails. -/
structure Make where
  showTargets : Option Name
  showDepends : Name → Option Name

/-- `str.isspace` of a character -/
def isspace (c : UInt8) : Bool := c == 0x20 || (0x09 ≤ c && c ≤ 0x0d)

def strip (s : Name) : Name := ((s.dropWhile isspace).reverse.dropWhile isspace).reverse

/-- The names of an output. -/
def splitOutput (output : Name) : List Name :=
  let output := strip output
  if output = [] then [] else output.splitOn chSpace

def getTargets (make : Make) : Option (List Name) := make.showTargets.map splitOutput

def getDepends (make : Make) (pkg : Name) : Option (List Name) :=
  (make.showDepends pkg).map splitOutput

/-! ## The search -/

/-- The lists of the script. `asked` is what was written to the standard error: the packages
whose dependencies `make` was asked for. -/
structure Tables where
  allpkgs : List Name
  unknownpkgs : List Name
  asked : List Name
  deriving Repr

/-- `for dep in depends`: the edges found are added to those there are. -/
def addDepends (visit : Tables → Name → Option (Option (List Edge) × Tables))
    (acc : List Edge × Tables) (depends : List Name) : Option (List Edge × Tables) :=
  depends.foldlM (fun (dependencies, t) dep => do
    let (newdeps, t) ← visit t dep
    some (dependencies ++ newdeps.getD [], t)) acc

/-- The tables once the dependencies of a package were asked for. -/
def Tables.ask (t : Tables) (pkg : Name) : Tables :=
  { t with allpkgs := t.allpkgs ++ [pkg], asked := t.asked ++ [pkg] }

/-- `get_all_depends`, cut off at a depth of the recursion. -/
def getAllDepends (make : Make) : Nat → Tables → Name → Option (Option (List Edge) × Tables)
  | 0, _, _ => none
  | n + 1, t, pkg =>
    if pkg ∈ t.allpkgs then some (none, t)
    else
      let t := t.ask pkg
      match getDepends make pkg with
      | none => some (none, { t with unknownpkgs := t.unknownpkgs ++ [pkg] })
      | some [] => some (none, t)
      | some depends => do
        let (dependencies, t) ← addDepends (getAllDepends make n) (depends.map (pkg, ·), t) depends
        some (some dependencies, t)

/-! ## The script -/

inductive Mode
  | full
  | pkg (rootpkg : Name)
  deriving DecidableEq, Repr

/-- What Python raises. -/
inductive PyError
  | typeError
  deriving DecidableEq, Repr

def nameAll : Name := ascii "all"

/-- The targets that are not drawn. -/
def skipped (tg : Name) : Bool :=
  tg == ascii "target-generic-issue" || tg == ascii "target-finalize" ||
    tg == ascii "erase-fakeroots" || tg == ascii "target-generic-hostname"

/-- The loop over the targets. -/
def addTargets (visit : Tables → Name → Option (Option (List Edge) × Tables))
    (acc : List Edge × Tables) (targets : List Name) : Option (List Edge × Tables) :=
  targets.foldlM (fun (dependencies, t) tg =>
    if skipped tg then some (dependencies, t)
    else do
      let (deps, t) ← visit t tg
      some (dependencies ++ [(nameAll, tg)] ++ deps.getD [], t)) acc

/-- The order a set is iterated in. -/
structure SetOrder where
  list : List Edge → List Edge
  nodup : ∀ l, (list l).Nodup
  mem_iff : ∀ l e, e ∈ list l ↔ e ∈ l

/-- `pkg_node_name` -/
def pkgNodeName (pkg : Name) : Name := pkg.filter (· != chMinus)

def edgeLine (e : Edge) : Name := pkgNodeName e.1 ++ ascii " -> " ++ pkgNodeName e.2

/-- The attributes of a node. -/
def nodeLines (mode : Mode) (unknownpkgs : List Name) (pkg : Name) : List Name :=
  if pkg = nameAll then
    [ascii "all [label = \"ALL\"]", ascii "all [color=lightblue,style=filled]"]
  else
    let color := if pkg ∈ unknownpkgs then ascii "red"
      else if mode = .pkg pkg then ascii "lightblue" else ascii "grey"
    [pkgNodeName pkg ++ ascii " [label = \"" ++ pkg ++ ascii "\"]",
      pkgNodeName pkg ++ ascii " [color=" ++ color ++ ascii ",style=filled]"]

/-- What a run that came to its end asked `make` for, and the edges and lines it printed. -/
structure Output where
  asked : List Name
  edges : List Edge
  lines : List Name

/-- The end of the script. -/
def printGraph (order : SetOrder) (mode : Mode) (dependencies : List Edge) (t : Tables) : Output :=
  { asked := t.asked
    edges := order.list dependencies
    lines := ascii "digraph G \x7b" :: (order.list dependencies).map edgeLine ++
      t.allpkgs.flatMap (nodeLines mode t.unknownpkgs) ++ [ascii "\x7d"] }

/-- graph-depends, with so deep a recursion. -/
def graphDepends (order : SetOrder) (make : Make) (mode : Mode) (depth : Nat) :
    Option (Except PyError Output) :=
  match mode with
  | .full =>
    match getTargets make with
    -- the loop over `None`
    | none => some (.error .typeError)
    | some targets => do
      let (dependencies, t) ←
        addTargets (getAllDepends make depth) ([], ⟨[nameAll], [], []⟩) targets
      some (.ok (printGraph order mode dependencies t))
  | .pkg rootpkg => do
    match ← getAllDepends make depth ⟨[], [], []⟩ rootpkg with
    | (some dependencies, t) => some (.ok (printGraph order mode dependencies t))
    | (none, _) => some (.error .typeError)

/-! ## The search explores the dependencies -/

section Search
variable (make : Make)

/-- The dependencies of a package: none of one that `make` does not know. -/
def depends (pkg : Name) : List Name := (getDepends make pkg).getD []

/-- A part of the search: the packages it went through and asked for are the same. -/
def Searched (t : Tables) (roots : List Name) (edges : List Edge) (t' : Tables) : Prop :=
  ∃ new, t'.allpkgs = t.allpkgs ++ new ∧ t'.asked = t.asked ++ new ∧
    Explored (depends make) t.allpkgs roots new edges

variable {make}

theorem Searched.nil (t : Tables) : Searched make t [] [] t :=
  ⟨[], (List.append_nil _).symm, (List.append_nil _).symm, .nil _⟩

theorem Searched.append {t t₁ t₂ : Tables} {roots roots' : List Name} {edges edges' : List Edge}
    (h : Searched make t roots edges t₁) (h' : Searched make t₁ roots' edges' t₂) :
    Searched make t (roots ++ roots') (edges ++ edges') t₂ := by
  obtain ⟨new, hall, hask, hexp⟩ := h
  obtain ⟨new', hall', hask', hexp'⟩ := h'
  rw [hall] at hexp'
  refine ⟨new ++ new', ?_, ?_, hexp.append hexp'⟩
  · rw [hall', hall, List.append_assoc]
  · rw [hask', hask, List.append_assoc]

/-- A package seen before. -/
theorem Searched.skip {t : Tables} {pkg : Name} (hpkg : pkg ∈ t.allpkgs) :
    Searched make t [pkg] [] t :=
  ⟨[], (List.append_nil _).symm, (List.append_nil _).symm, .skip hpkg⟩

/-- A new package, whose dependencies were searched. -/
theorem Searched.node {t t' : Tables} {pkg : Name} {edges : List Edge} (hpkg : pkg ∉ t.allpkgs)
    (h : Searched make (t.ask pkg) (depends make pkg) edges t') :
    Searched make t [pkg] ((depends make pkg).map (pkg, ·) ++ edges) t' := by
  obtain ⟨new, hall, hask, hexp⟩ := h
  refine ⟨pkg :: new, ?_, ?_, hexp.node hpkg⟩
  · rw [hall, Tables.ask, List.append_assoc, List.singleton_append]
  · rw [hask, Tables.ask, List.append_assoc, List.singleton_append]

/-- A loop whose body searches searches what it goes over. -/
theorem addDepends_searched {visit : Tables → Name → Option (Option (List Edge) × Tables)}
    (hvisit : ∀ t pkg r t', visit t pkg = some (r, t') → Searched make t [pkg] (r.getD []) t')
    (deps : List Name) : ∀ {es es' : List Edge} {t t' : Tables},
    addDepends visit (es, t) deps = some (es', t') →
    ∃ new, es' = es ++ new ∧ Searched make t deps new t' := by
  induction deps with
  | nil =>
    intro es es' t t' h
    cases h
    exact ⟨[], (List.append_nil _).symm, .nil t⟩
  | cons dep deps ih =>
    intro es es' t t' h
    rw [addDepends, List.foldlM_cons, Option.bind_eq_bind, Option.bind_eq_some_iff] at h
    obtain ⟨⟨es₁, t₁⟩, hstep, hrest⟩ := h
    rw [Option.bind_eq_bind, Option.bind_eq_some_iff] at hstep
    obtain ⟨⟨r, t₂⟩, hv, heq⟩ := hstep
    cases heq
    obtain ⟨new, rfl, hs⟩ := ih hrest
    exact ⟨r.getD [] ++ new, List.append_assoc _ _ _, (hvisit _ _ _ _ hv).append hs⟩

/-- **`get_all_depends` searches** the dependencies of a package, at whatever depth, and asks
for each package it goes through once. -/
theorem getAllDepends_searched (n : Nat) : ∀ (t : Tables) (pkg : Name) (r : Option (List Edge))
    (t' : Tables), getAllDepends make n t pkg = some (r, t') →
      Searched make t [pkg] (r.getD []) t' := by
  induction n with
  | zero =>
    intro t pkg r t' h
    cases h
  | succ n ih =>
    intro t pkg r t' h
    rw [getAllDepends] at h
    split at h
    · next hpkg =>
      cases h
      exact .skip hpkg
    next hpkg =>
    -- a package without dependencies is a new one with nothing to search behind it
    have hleaf : depends make pkg = [] → ∀ u : Tables, u.allpkgs = (t.ask pkg).allpkgs →
        u.asked = (t.ask pkg).asked → Searched make t [pkg] [] u := by
      intro hdep u hall hask
      have hs : Searched make (t.ask pkg) (depends make pkg) [] u := by
        rw [hdep]
        exact ⟨[], by rw [hall, List.append_nil], by rw [hask, List.append_nil], .nil _⟩
      have hn := hs.node hpkg
      rwa [hdep] at hn
    split at h
    · next hget =>
      cases h
      exact hleaf (by rw [depends, hget]; rfl) _ rfl rfl
    · next hget =>
      cases h
      exact hleaf (by rw [depends, hget]; rfl) _ rfl rfl
    · next deps hne hget =>
      have hdep : depends make pkg = deps := by
        rw [depends, hget]
        rfl
      rw [Option.bind_eq_bind, Option.bind_eq_some_iff] at h
      obtain ⟨⟨es, u⟩, hloop, heq⟩ := h
      cases heq
      obtain ⟨new, rfl, hs⟩ := addDepends_searched ih deps hloop
      rw [← hdep] at hs ⊢
      exact hs.node hpkg

/-! ## The search ends -/

theorem Searched.subset {t t' : Tables} {roots : List Name} {edges : List Edge}
    (h : Searched make t roots edges t') : ∀ x ∈ t.allpkgs, x ∈ t'.allpkgs := by
  obtain ⟨new, hall, -, -⟩ := h
  intro x hx
  rw [hall]
  exact List.mem_append_left _ hx

/-- A loop over packages of a finite set ends, if its body does on each. -/
theorem addDepends_ends {n : Nat} {all : List Name}
    (hvisit : ∀ t pkg, pkg ∈ all → unseen all t.allpkgs < n →
      ∃ r, getAllDepends make n t pkg = some r) (deps : List Name) :
    ∀ (es : List Edge) (t : Tables), (∀ dep ∈ deps, dep ∈ all) → unseen all t.allpkgs < n →
    ∃ r, addDepends (getAllDepends make n) (es, t) deps = some r := by
  induction deps with
  | nil => exact fun es t _ _ => ⟨_, rfl⟩
  | cons dep deps ih =>
    intro es t hall hn
    obtain ⟨⟨r, t'⟩, hr⟩ := hvisit t dep (hall dep List.mem_cons_self) hn
    have hsub := (getAllDepends_searched n t dep r t' hr).subset
    obtain ⟨r', hr'⟩ := ih (es ++ r.getD []) t' (fun d hd => hall d (List.mem_cons_of_mem _ hd))
      (Nat.lt_of_le_of_lt (unseen_mono all hsub) hn)
    refine ⟨r', ?_⟩
    rw [addDepends, List.foldlM_cons]
    simp only [hr, Option.bind_eq_bind, Option.bind_some]
    exact hr'

/-- `get_all_depends` ends on every finite set of packages closed under dependencies. -/
theorem getAllDepends_ends {all : List Name}
    (hclosed : ∀ pkg ∈ all, ∀ dep ∈ depends make pkg, dep ∈ all) (n : Nat) :
    ∀ t pkg, pkg ∈ all → unseen all t.allpkgs < n →
      ∃ r, getAllDepends make n t pkg = some r := by
  induction n with
  | zero =>
    intro t pkg _ hn
    exact absurd hn (Nat.not_lt_zero _)
  | succ n ih =>
    intro t pkg hpkg hn
    rw [getAllDepends]
    split
    · exact ⟨_, rfl⟩
    next hnew =>
    split
    · exact ⟨_, rfl⟩
    · exact ⟨_, rfl⟩
    · next deps hne hget =>
      have hdep : depends make pkg = deps := by
        rw [depends, hget]
        rfl
      have hlt := unseen_lt hpkg hnew
      obtain ⟨⟨es, u⟩, hr⟩ := addDepends_ends ih deps (deps.map (pkg, ·)) (t.ask pkg)
        (fun d hd => hclosed pkg hpkg d (hdep ▸ hd))
        (show unseen all (t.allpkgs ++ [pkg]) < n by omega)
      refine ⟨(some es, u), ?_⟩
      simp only [hr, Option.bind_eq_bind, Option.bind_some]

/-! ## The targets -/

/-- The targets that are drawn. -/
def keptTargets (make : Make) : List Name :=
  ((getTargets make).getD []).filter (!skipped ·)

/-- The loop over the targets searches those that are drawn, with an edge to each. -/
theorem addTargets_searched {visit : Tables → Name → Option (Option (List Edge) × Tables)}
    (hvisit : ∀ t pkg r t', visit t pkg = some (r, t') → Searched make t [pkg] (r.getD []) t')
    (targets : List Name) : ∀ {es es' : List Edge} {t t' : Tables},
    addTargets visit (es, t) targets = some (es', t') →
    ∃ new, Searched make t (targets.filter (!skipped ·)) new t' ∧ ∀ e, e ∈ es' ↔
      e ∈ es ∨ e ∈ new ∨ (e.1 = nameAll ∧ e.2 ∈ targets.filter (!skipped ·)) := by
  induction targets with
  | nil =>
    intro es es' t t' h
    cases h
    exact ⟨[], .nil t, fun e => by simp⟩
  | cons tg targets ih =>
    intro es es' t t' h
    rw [addTargets, List.foldlM_cons, Option.bind_eq_bind, Option.bind_eq_some_iff] at h
    obtain ⟨⟨es₁, t₁⟩, hstep, hrest⟩ := h
    obtain ⟨new, hs, hmem⟩ := ih hrest
    -- four targets are passed over, by their names
    cases hskip : skipped tg with
    | true =>
      simp only [hskip, if_true] at hstep
      cases hstep
      rw [List.filter_cons_of_neg (by simp [hskip])]
      exact ⟨new, hs, hmem⟩
    | false =>
      simp only [hskip, Bool.false_eq_true, if_false, Option.bind_eq_bind,
        Option.bind_eq_some_iff] at hstep
      obtain ⟨⟨r, t₂⟩, hv, heq⟩ := hstep
      cases heq
      rw [List.filter_cons_of_pos (by simp [hskip])]
      refine ⟨r.getD [] ++ new, (hvisit _ _ _ _ hv).append hs, ?_⟩
      rintro ⟨a, b⟩
      simp only [hmem, List.mem_append, List.mem_cons, Prod.mk.injEq, List.not_mem_nil, or_false]
      tauto

theorem addTargets_ends {n : Nat} {all : List Name}
    (hvisit : ∀ t pkg, pkg ∈ all → unseen all t.allpkgs < n →
      ∃ r, getAllDepends make n t pkg = some r) (targets : List Name) :
    ∀ (es : List Edge) (t : Tables), (∀ tg ∈ targets, tg ∈ all) → unseen all t.allpkgs < n →
    ∃ r, addTargets (getAllDepends make n) (es, t) targets = some r := by
  induction targets with
  | nil => exact fun es t _ _ => ⟨_, rfl⟩
  | cons tg targets ih =>
    intro es t hall hn
    rw [addTargets, List.foldlM_cons]
    cases hskip : skipped tg with
    | true =>
      simp only [if_true, Option.bind_eq_bind, Option.bind_some]
      exact ih es t (fun d hd => hall d (List.mem_cons_of_mem _ hd)) hn
    | false =>
      obtain ⟨⟨r, t'⟩, hr⟩ := hvisit t tg (hall tg List.mem_cons_self) hn
      have hsub := (getAllDepends_searched n t tg r t' hr).subset
      simp only [Bool.false_eq_true, if_false, hr, Option.bind_eq_bind, Option.bind_some]
      exact ih _ t' (fun d hd => hall d (List.mem_cons_of_mem _ hd))
        (Nat.lt_of_le_of_lt (unseen_mono all hsub) hn)

/-! ## The graph printed -/

variable (make)

/-- A dependency of a package that can be reached. -/
def DependencyEdge (roots : List Name) (e : Edge) : Prop :=
  ReachedFrom (depends make) roots e.1 ∧ e.2 ∈ depends make e.1

/-- The edges of the graph asked for. -/
def WantedEdge : Mode → Edge → Prop
  | .full, e => DependencyEdge make (keptTargets make) e ∨
      (e.1 = nameAll ∧ e.2 ∈ keptTargets make)
  | .pkg rootpkg, e => DependencyEdge make [rootpkg] e

/-- The script comes to its end, having asked for each package at most once, and prints the
edges of the graph. -/
def DrawsGraph (order : SetOrder) (mode : Mode) : Prop :=
  ∃ depth out, graphDepends order make mode depth = some (.ok out) ∧ out.asked.Nodup ∧
    ∀ e, e ∈ out.edges ↔ WantedEdge make mode e

/-- The package asked for has dependencies; and a package "all" that some target depends on
depends on no other than the targets. -/
def Drawable : Mode → Prop
  | .full => ReachedFrom (depends make) (keptTargets make) nameAll →
      ∀ dep ∈ depends make nameAll, dep ∈ keptTargets make
  | .pkg rootpkg => depends make rootpkg ≠ []

variable {make}

/-- A finite set of packages that holds some of them and all dependencies. -/
theorem exists_closed (hfin : {e : Edge | e.2 ∈ depends make e.1}.Finite) (roots : List Name) :
    ∃ all : List Name, (∀ x ∈ roots, x ∈ all) ∧
      ∀ pkg ∈ all, ∀ dep ∈ depends make pkg, dep ∈ all := by
  refine ⟨roots ++ hfin.toFinset.toList.map Prod.snd, fun x hx => List.mem_append_left _ hx, ?_⟩
  intro pkg _ dep hdep
  refine List.mem_append_right _ (List.mem_map.mpr ⟨(pkg, dep), ?_, rfl⟩)
  exact Finset.mem_toList.mpr (hfin.mem_toFinset.mpr hdep)

/-- A root without dependencies ends the script, at any depth. -/
theorem leaf_root_raises {rootpkg : Name} (hleaf : depends make rootpkg = []) (order : SetOrder)
    {depth : Nat} {r : Except PyError Output}
    (hrun : graphDepends order make (.pkg rootpkg) depth = some r) : r = .error .typeError := by
  cases depth with
  | zero => cases hrun
  | succ n =>
    rw [graphDepends, getAllDepends, if_neg List.not_mem_nil] at hrun
    cases hget : getDepends make rootpkg with
    | none =>
      simp only [hget, Option.bind_eq_bind, Option.bind_some] at hrun
      exact (Option.some.inj hrun).symm
    | some deps =>
      have hnil : deps = [] := by
        rw [depends, hget] at hleaf
        exact hleaf
      subst hnil
      simp only [hget, Option.bind_eq_bind, Option.bind_some] at hrun
      exact (Option.some.inj hrun).symm

/-- The graph of a package that has dependencies. -/
theorem pkg_draws (hfin : {e : Edge | e.2 ∈ depends make e.1}.Finite) (order : SetOrder)
    {rootpkg : Name} (hdep : depends make rootpkg ≠ []) :
    DrawsGraph make order (.pkg rootpkg) := by
  obtain ⟨all, hroot, hclosed⟩ := exists_closed hfin [rootpkg]
  obtain ⟨⟨r, t⟩, hr⟩ := getAllDepends_ends hclosed (unseen all [] + 1) ⟨[], [], []⟩ rootpkg
    (hroot _ (List.mem_singleton_self _)) (Nat.lt_succ_self _)
  obtain ⟨new, hall, hask, hexp⟩ := getAllDepends_searched _ _ _ _ _ hr
  have hnew : ∀ y, y ∈ new ↔ ReachedFrom (depends make) [rootpkg] y := by
    intro y
    refine ⟨hexp.reached y, fun hy => ?_⟩
    rcases hexp.covers (fun y hy => absurd hy List.not_mem_nil) hy with hs | hn
    · exact absurd hs List.not_mem_nil
    · exact hn
  cases r with
  | none =>
    -- the edges of the root would have been returned
    obtain ⟨dep, hmem⟩ := List.exists_mem_of_ne_nil _ hdep
    have hnone := (hexp.edges_iff (rootpkg, dep)).mpr
      ⟨(hnew _).mpr (.root (List.mem_singleton_self _)), hmem⟩
    cases hnone
  | some es =>
    refine ⟨unseen all [] + 1, printGraph order (.pkg rootpkg) es t, ?_, ?_, ?_⟩
    · rw [graphDepends]
      simp only [hr, Option.bind_eq_bind, Option.bind_some]
    · show t.asked.Nodup
      rw [hask, List.nil_append]
      exact hexp.nodup
    · intro e
      show e ∈ order.list es ↔ _
      rw [order.mem_iff]
      exact (hexp.edges_iff e).trans (and_congr_left' (hnew e.1))

/-- What the full graph is printed from, at any depth. -/
theorem full_run {order : SetOrder} {depth : Nat} {r : Except PyError Output}
    (hshow : make.showTargets.isSome) (hrun : graphDepends order make .full depth = some r) :
    ∃ es found t new, r = .ok (printGraph order .full es t) ∧ t.asked = new ∧
      Explored (depends make) [nameAll] (keptTargets make) new found ∧
      ∀ e, e ∈ es ↔ e ∈ found ∨ (e.1 = nameAll ∧ e.2 ∈ keptTargets make) := by
  obtain ⟨output, houtput⟩ := Option.isSome_iff_exists.mp hshow
  have htargets : getTargets make = some (splitOutput output) := by
    rw [getTargets, houtput]
    rfl
  have hkept : keptTargets make = (splitOutput output).filter (!skipped ·) := by
    rw [keptTargets, htargets]
    rfl
  rw [graphDepends] at hrun
  simp only [htargets, Option.bind_eq_bind, Option.bind_eq_some_iff] at hrun
  obtain ⟨⟨es, t⟩, hloop, heq⟩ := hrun
  obtain ⟨found, ⟨new, -, hask, hexp⟩, hmem⟩ := addTargets_searched (getAllDepends_searched depth)
    (splitOutput output) hloop
  rw [← hkept] at hexp hmem
  refine ⟨es, found, t, new, (Option.some.inj heq).symm, by rw [hask, List.nil_append], hexp, ?_⟩
  intro e
  rw [hmem e]
  exact ⟨fun h => h.resolve_left List.not_mem_nil, .inr⟩

/-- The edges of the full graph are those wanted unless the node "all" hides dependencies of a
package of that name. -/
theorem full_edges_iff {new : List Name} {found : List Edge}
    (hexp : Explored (depends make) [nameAll] (keptTargets make) new found) :
    (∀ e : Edge, (e ∈ found ∨ (e.1 = nameAll ∧ e.2 ∈ keptTargets make)) ↔
      WantedEdge make .full e) ↔ Drawable make .full := by
  refine ⟨?_, ?_⟩
  · intro hall hreach dep hdep
    rcases (hall (nameAll, dep)).mpr (.inl ⟨hreach, hdep⟩) with hfound | ⟨-, hkept⟩
    · have hnew := ((hexp.edges_iff _).mp hfound).1
      exact absurd (List.mem_singleton_self _) (hexp.fresh _ hnew)
    · exact hkept
  · intro hdraw e
    refine ⟨?_, ?_⟩
    · rintro (hfound | htarget)
      · obtain ⟨hnew, hdep⟩ := (hexp.edges_iff e).mp hfound
        exact .inl ⟨hexp.reached _ hnew, hdep⟩
      · exact .inr htarget
    · rintro (⟨hreach, hdep⟩ | htarget)
      · have hcovers := hexp.covers (y := e.1) (fun y hy hyr z hz => by
          rw [List.mem_singleton.mp hy] at hyr hz
          exact hexp.visited z (hdraw hyr z hz)) hreach
        rcases hcovers with hs | hn
        · have hname : e.1 = nameAll := List.mem_singleton.mp hs
          exact .inr ⟨hname, hdraw (hname ▸ hreach) _ (hname ▸ hdep)⟩
        · exact .inl ((hexp.edges_iff e).mpr ⟨hn, hdep⟩)
      · exact .inr htarget

/-- The full graph is printed at some depth. -/
theorem full_ends (hfin : {e : Edge | e.2 ∈ depends make e.1}.Finite) (order : SetOrder)
    (hshow : make.showTargets.isSome) :
    ∃ depth out, graphDepends order make .full depth = some (.ok out) := by
  obtain ⟨output, houtput⟩ := Option.isSome_iff_exists.mp hshow
  have htargets : getTargets make = some (splitOutput output) := by
    rw [getTargets, houtput]
    rfl
  obtain ⟨all, hroot, hclosed⟩ := exists_closed hfin (splitOutput output)
  obtain ⟨⟨es, t⟩, hr⟩ := addTargets_ends (getAllDepends_ends hclosed (unseen all [nameAll] + 1))
    (splitOutput output) [] ⟨[nameAll], [], []⟩ hroot (Nat.lt_succ_self _)
  refine ⟨unseen all [nameAll] + 1, printGraph order .full es t, ?_⟩
  rw [graphDepends]
  simp only [htargets, hr, Option.bind_eq_bind, Option.bind_some]

/-- **graph-depends draws the graph** of every finite dependency relation exactly where the
package it is started on has dependencies, or, of all targets, where no package "all" with
dependencies of its own is among them. -/
theorem graph_depends_iff (order : SetOrder) (make : Make) (hshow : make.showTargets.isSome)
    (hfin : {e : Edge | e.2 ∈ depends make e.1}.Finite) (mode : Mode) :
    DrawsGraph make order mode ↔ Drawable make mode := by
  cases mode with
  | full =>
    refine ⟨?_, ?_⟩
    · rintro ⟨depth, out, hrun, -, hedges⟩
      obtain ⟨es, found, t, new, hout, -, hexp, hmem⟩ := full_run hshow hrun
      cases hout
      refine (full_edges_iff hexp).mp fun e => ?_
      rw [← hmem e, ← hedges e]
      exact (order.mem_iff es e).symm
    · intro hdraw
      obtain ⟨depth, out, hrun⟩ := full_ends hfin order hshow
      obtain ⟨es, found, t, new, hout, hask, hexp, hmem⟩ := full_run hshow hrun
      cases hout
      refine ⟨depth, _, hrun, ?_, fun e => ?_⟩
      · show t.asked.Nodup
        rw [hask]
        exact hexp.nodup
      · show e ∈ order.list es ↔ _
        rw [order.mem_iff, hmem e]
        exact (full_edges_iff hexp).mpr hdraw e
  | pkg rootpkg =>
    refine ⟨?_, ?_⟩
    · rintro ⟨depth, out, hrun, -⟩ hleaf
      cases leaf_root_raises hleaf order hrun
    · exact pkg_draws hfin order

end Search

/-- The order of the list itself. -/
def listOrder : SetOrder where
  list := List.dedup
  nodup := List.nodup_dedup
  mem_iff _ _ := List.mem_dedup

/-- What `make` says where the package "a" depends on "b", "b" on "a", and no other on any. -/
def twoPackages : Make where
  showTargets := some []
  showDepends pkg :=
    if pkg = ascii "a" then some (ascii "b
") else if pkg = ascii "b" then some (ascii "a
")
    else some []

theorem twoPackages_finite : {e : Edge | e.2 ∈ depends twoPackages e.1}.Finite := by
  refine (Set.toFinite {(ascii "a", ascii "b"), (ascii "b", ascii "a")}).subset ?_
  rintro ⟨x, y⟩ hy
  have hdep : depends twoPackages x =
      if x = ascii "a" then [ascii "b"] else if x = ascii "b" then [ascii "a"] else [] := by
    show ((if _ then _ else if _ then _ else _ : Option Name).map splitOutput).getD [] = _
    split
    · decide
    split
    · decide
    · rfl
  replace hy : y ∈ depends twoPackages x := hy
  rw [hdep] at hy
  by_cases ha : x = ascii "a"
  · rw [if_pos ha] at hy
    have hb : y = ascii "b" := List.mem_singleton.mp hy
    rw [ha, hb]
    exact .inl rfl
  rw [if_neg ha] at hy
  by_cases hb : x = ascii "b"
  · rw [if_pos hb] at hy
    have hya : y = ascii "a" := List.mem_singleton.mp hy
    rw [hb, hya]
    exact .inr rfl
  · rw [if_neg hb] at hy
    cases hy

/-- A cycle of two packages. -/
theorem graph_depends_cycle : DrawsGraph twoPackages listOrder (.pkg (ascii "a")) :=
  (graph_depends_iff listOrder twoPackages rfl twoPackages_finite (.pkg (ascii "a"))).mpr
    (by show depends twoPackages (ascii "a") ≠ []; decide)

/-- A package without dependencies: the script ends in an exception. -/
theorem graph_depends_leaf : twoPackages.showTargets.isSome ∧
    {e : Edge | e.2 ∈ depends twoPackages e.1}.Finite ∧
    ¬ DrawsGraph twoPackages listOrder (.pkg (ascii "c")) := by
  refine ⟨rfl, twoPackages_finite, ?_⟩
  rintro ⟨depth, out, hrun, -⟩
  cases leaf_root_raises (by decide) listOrder hrun

end Lichee.Scripts

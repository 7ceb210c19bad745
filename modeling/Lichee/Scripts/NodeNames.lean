import Lichee.Scripts.GraphDepends

/- The node names of the dependency graph (`pkg_node_name` of scripts/graph-depends). dot does
   not like dashes, so a package's node is its name without them, and its label the whole name.
   Two packages whose names differ in nothing but dashes are one node: the graph printed is the
   graph of dependencies just where no two of its packages do (`drawn_faithful_iff`). -/
namespace Lichee.Scripts
open Base

/-! ## Names up to dashes -/

/-- Two names that differ in nothing but where dashes stand. -/
inductive SameButDashes : Name → Name → Prop
  | nil : SameButDashes [] []
  | left {p q : Name} (h : SameButDashes p q) : SameButDashes (chMinus :: p) q
  | right {p q : Name} (h : SameButDashes p q) : SameButDashes p (chMinus :: q)
  | cons (c : UInt8) {p q : Name} (h : SameButDashes p q) : SameButDashes (c :: p) (c :: q)

theorem pkgNodeName_cons {c : UInt8} (hc : c ≠ chMinus) (p : Name) :
    pkgNodeName (c :: p) = c :: pkgNodeName p := by
  rw [pkgNodeName, List.filter_cons_of_pos (by simpa using hc)]
  rfl

theorem SameButDashes.of_nodes : ∀ {p q : Name}, pkgNodeName p = pkgNodeName q →
    SameButDashes p q
  | [], [], _ => .nil
  | p, d :: q, h => by
    by_cases hd : d = chMinus
    · subst hd
      exact .right (of_nodes h)
    · cases p with
      | nil =>
        rw [pkgNodeName_cons hd] at h
        cases h
      | cons c p =>
        by_cases hc : c = chMinus
        · subst hc
          exact .left (of_nodes h)
        · rw [pkgNodeName_cons hc, pkgNodeName_cons hd] at h
          obtain ⟨hcd, hpq⟩ := List.cons.inj h
          subst hcd
          exact .cons c (of_nodes hpq)
  | c :: p, [], h => by
    by_cases hc : c = chMinus
    · subst hc
      exact .left (of_nodes h)
    · rw [pkgNodeName_cons hc] at h
      cases h

/-- Names have one node just where they differ in nothing but dashes. -/
theorem pkgNodeName_eq_iff {p q : Name} : pkgNodeName p = pkgNodeName q ↔ SameButDashes p q := by
  refine ⟨.of_nodes, fun h => ?_⟩
  induction h with
  | nil => rfl
  | left _ ih => exact ih
  | right _ ih => exact ih
  | cons c _ ih =>
    by_cases hc : c = chMinus
    · subst hc
      exact ih
    · rw [pkgNodeName_cons hc, pkgNodeName_cons hc, ih]

/-! ## The packages drawn -/

/-- `make` as the full graph sees it: the node "all" stands for no package. -/
def withoutAll (make : Make) : Make where
  showTargets := make.showTargets
  showDepends pkg := if pkg = nameAll then some [] else make.showDepends pkg

/-- The packages of the graph asked for: those a search from the targets, or from the root, comes
to. -/
def Wanted (make : Make) : Mode → Name → Prop
  | .full, pkg => pkg = nameAll ∨
      ReachedFrom (depends (withoutAll make)) (keptTargets make) pkg
  | .pkg rootpkg, pkg => ReachedFrom (depends make) [rootpkg] pkg

/-- The packages a run printed the attributes of. -/
def Output.drawn (mode : Mode) (out : Output) : List Name :=
  (if mode = .full then [nameAll] else []) ++ out.asked

/-- An edge as it is printed. -/
def nodeEdge (e : Edge) : Edge := (pkgNodeName e.1, pkgNodeName e.2)

/-- The graph printed is the graph of the packages: each has a node of its own, and there is an
edge between two nodes just where there is one between their packages. -/
structure Faithful (mode : Mode) (out : Output) : Prop where
  injective : ∀ p ∈ out.drawn mode, ∀ q ∈ out.drawn mode, pkgNodeName p = pkgNodeName q → p = q
  edge_iff : ∀ p ∈ out.drawn mode, ∀ q ∈ out.drawn mode,
    nodeEdge (p, q) ∈ out.edges.map nodeEdge ↔ (p, q) ∈ out.edges

/-! ## A search that never asks for "all" -/

section Hidden
variable {make : Make}

theorem depends_withoutAll_all : depends (withoutAll make) nameAll = [] := by
  simp only [depends, getDepends, withoutAll, if_true]
  decide

/-- A loop of searches that do the same does the same. -/
theorem addDepends_withoutAll {n : Nat}
    (hvisit : ∀ t pkg, nameAll ∈ t.allpkgs →
      getAllDepends (withoutAll make) n t pkg = getAllDepends make n t pkg)
    (deps : List Name) : ∀ (es : List Edge) {t : Tables}, nameAll ∈ t.allpkgs →
    addDepends (getAllDepends (withoutAll make) n) (es, t) deps =
      addDepends (getAllDepends make n) (es, t) deps := by
  induction deps with
  | nil => exact fun es t _ => rfl
  | cons dep deps ih =>
    intro es t ht
    rw [addDepends, addDepends, List.foldlM_cons, List.foldlM_cons]
    simp only [hvisit t dep ht]
    cases hr : getAllDepends make n t dep with
    | none => rfl
    | some r =>
      obtain ⟨r, t'⟩ := r
      simp only [Option.bind_eq_bind, Option.bind_some]
      exact ih _ ((getAllDepends_searched n t dep r t' hr).subset _ ht)

theorem getAllDepends_withoutAll (n : Nat) : ∀ (t : Tables) (pkg : Name), nameAll ∈ t.allpkgs →
    getAllDepends (withoutAll make) n t pkg = getAllDepends make n t pkg := by
  induction n with
  | zero => exact fun t pkg _ => rfl
  | succ n ih =>
    intro t pkg ht
    rw [getAllDepends, getAllDepends]
    split
    · rfl
    next hpkg =>
    have hne : pkg ≠ nameAll := by
      rintro rfl
      exact hpkg ht
    have hask : nameAll ∈ (t.ask pkg).allpkgs := List.mem_append_left _ ht
    have hget : getDepends (withoutAll make) pkg = getDepends make pkg := by
      simp only [getDepends, withoutAll, if_neg hne]
    rw [hget]
    split
    · rfl
    · rfl
    · next deps _ _ =>
      dsimp only
      rw [addDepends_withoutAll ih deps _ hask]

theorem addTargets_withoutAll {n : Nat} (targets : List Name) : ∀ (es : List Edge) {t : Tables},
    nameAll ∈ t.allpkgs → addTargets (getAllDepends (withoutAll make) n) (es, t) targets =
      addTargets (getAllDepends make n) (es, t) targets := by
  induction targets with
  | nil => exact fun es t _ => rfl
  | cons tg targets ih =>
    intro es t ht
    rw [addTargets, addTargets, List.foldlM_cons, List.foldlM_cons]
    cases hskip : skipped tg with
    | true =>
      simp only [if_true, Option.bind_eq_bind, Option.bind_some]
      exact ih es ht
    | false =>
      simp only [Bool.false_eq_true, if_false, getAllDepends_withoutAll n t tg ht]
      cases hr : getAllDepends make n t tg with
      | none => rfl
      | some r =>
        obtain ⟨r, t'⟩ := r
        simp only [Option.bind_eq_bind, Option.bind_some]
        exact ih _ ((getAllDepends_searched n t tg r t' hr).subset _ ht)

/-- The full graph is the same without a package "all". -/
theorem graphDepends_withoutAll (order : SetOrder) (depth : Nat) :
    graphDepends order (withoutAll make) .full depth = graphDepends order make .full depth := by
  have htargets : getTargets (withoutAll make) = getTargets make := rfl
  rw [graphDepends, graphDepends, htargets]
  split
  · rfl
  · rw [addTargets_withoutAll _ _ (List.mem_singleton_self nameAll)]

end Hidden

/-! ## What a run printed -/

section Run
variable {make : Make} {order : SetOrder} {mode : Mode} {depth : Nat} {out : Output}

/-- The packages a search starts with in the tables. -/
def seenBefore : Mode → List Name
  | .full => [nameAll]
  | .pkg _ => []

/-- The packages it starts from. -/
def roots (make : Make) : Mode → List Name
  | .full => keptTargets make
  | .pkg rootpkg => [rootpkg]

/-- The graph is printed from what a search explored; the full graph has the edges to the targets
too. -/
theorem run_explored (hrun : graphDepends order make mode depth = some (.ok out)) :
    ∃ es found t new, out = printGraph order mode es t ∧ t.asked = new ∧
      t.allpkgs = seenBefore mode ++ new ∧
      Explored (depends make) (seenBefore mode) (roots make mode) new found ∧
      ∀ e, e ∈ es ↔ e ∈ found ∨ (mode = .full ∧ e.1 = nameAll ∧ e.2 ∈ roots make mode) := by
  cases mode with
  | full =>
    cases htargets : getTargets make with
    | none =>
      rw [graphDepends, htargets] at hrun
      cases hrun
    | some targets =>
      have hkept : keptTargets make = targets.filter (!skipped ·) := by
        rw [keptTargets, htargets]
        rfl
      rw [graphDepends] at hrun
      simp only [htargets, Option.bind_eq_bind, Option.bind_eq_some_iff] at hrun
      obtain ⟨⟨es, t⟩, hloop, heq⟩ := hrun
      cases heq
      obtain ⟨found, ⟨new, hall, hask, hexp⟩, hmem⟩ :=
        addTargets_searched (getAllDepends_searched depth) targets hloop
      rw [← hkept] at hexp hmem
      refine ⟨es, found, t, new, rfl, by rw [hask, List.nil_append], hall, hexp, ?_⟩
      intro e
      rw [hmem e]
      simp [roots]
  | pkg rootpkg =>
    rw [graphDepends] at hrun
    simp only [Option.bind_eq_bind, Option.bind_eq_some_iff] at hrun
    obtain ⟨⟨r, t⟩, hsearch, heq⟩ := hrun
    cases r with
    | none => cases heq
    | some es =>
      cases heq
      obtain ⟨new, hall, hask, hexp⟩ := getAllDepends_searched _ _ _ _ _ hsearch
      refine ⟨es, es, t, new, rfl, by rw [hask, List.nil_append], hall, hexp, ?_⟩
      intro e
      simp

/-- The packages drawn are those wanted. -/
theorem drawn_iff (hrun : graphDepends order make mode depth = some (.ok out)) (pkg : Name) :
    pkg ∈ out.drawn mode ↔ Wanted make mode pkg := by
  cases mode with
  | full =>
    rw [← graphDepends_withoutAll] at hrun
    obtain ⟨es, found, t, new, rfl, hask, -, hexp, -⟩ := run_explored hrun
    have hnew : (printGraph order .full es t).drawn .full = nameAll :: new := by
      rw [← hask]
      rfl
    rw [hnew, List.mem_cons, Wanted]
    refine ⟨?_, ?_⟩
    · rintro (rfl | h)
      · exact .inl rfl
      · exact .inr (hexp.reached pkg h)
    · rintro (rfl | h)
      · exact .inl rfl
      · refine (hexp.covers ?_ h).imp_left List.mem_singleton.mp
        intro y hy _ z hz
        rw [List.mem_singleton.mp hy, depends_withoutAll_all] at hz
        cases hz
  | pkg rootpkg =>
    obtain ⟨es, found, t, new, rfl, hask, -, hexp, -⟩ := run_explored hrun
    have hnew : (printGraph order (.pkg rootpkg) es t).drawn (.pkg rootpkg) = new := hask
    rw [hnew, Wanted]
    refine ⟨hexp.reached pkg, fun h => ?_⟩
    have hcovers := hexp.covers (fun y hy => absurd hy List.not_mem_nil) h
    exact hcovers.resolve_left List.not_mem_nil

/-- Both ends of an edge are drawn. -/
theorem edge_drawn (hrun : graphDepends order make mode depth = some (.ok out)) {e : Edge}
    (he : e ∈ out.edges) : e.1 ∈ out.drawn mode ∧ e.2 ∈ out.drawn mode := by
  obtain ⟨es, found, t, new, rfl, hask, hall, hexp, hes⟩ := run_explored hrun
  have hdrawn : ∀ p, p ∈ (printGraph order mode es t).drawn mode ↔
      p ∈ seenBefore mode ∨ p ∈ new := by
    intro p
    rw [← hask]
    cases mode with
    | full => exact List.mem_append
    | pkg rootpkg => exact List.mem_append
  rw [hdrawn, hdrawn]
  obtain hfound | ⟨rfl, hname, hroot⟩ := (hes e).mp ((order.mem_iff es e).mp he)
  · obtain ⟨hnew, hdep⟩ := (hexp.edges_iff e).mp hfound
    exact ⟨.inr hnew, hexp.closed e.1 hnew e.2 hdep⟩
  · exact ⟨.inl (List.mem_singleton.mpr hname), hexp.visited e.2 hroot⟩

/-- **The graph printed is the graph of the packages just where no two of those wanted differ in
nothing but dashes.** -/
theorem drawn_faithful_iff (hrun : graphDepends order make mode depth = some (.ok out)) :
    Faithful mode out ↔
      ∀ p q, Wanted make mode p → Wanted make mode q → SameButDashes p q → p = q := by
  refine ⟨?_, ?_⟩
  · intro h p q hp hq hsame
    exact h.injective p ((drawn_iff hrun p).mpr hp) q ((drawn_iff hrun q).mpr hq)
      (pkgNodeName_eq_iff.mpr hsame)
  · intro h
    have hinj : ∀ p ∈ out.drawn mode, ∀ q ∈ out.drawn mode,
        pkgNodeName p = pkgNodeName q → p = q := fun p hp q hq heq =>
      h p q ((drawn_iff hrun p).mp hp) ((drawn_iff hrun q).mp hq) (pkgNodeName_eq_iff.mp heq)
    refine ⟨hinj, fun p hp q hq => ⟨?_, List.mem_map_of_mem⟩⟩
    intro hmem
    obtain ⟨⟨p', q'⟩, he, hnode⟩ := List.mem_map.mp hmem
    obtain ⟨hp', hq'⟩ := edge_drawn hrun he
    obtain ⟨hpp, hqq⟩ := Prod.mk.inj hnode
    rw [← hinj p' hp' p hp hpp, ← hinj q' hq' q hq hqq]
    exact he

end Run

/-- The nodes of a cycle of two packages. -/
theorem drawn_faithful_cycle : ∃ out,
    graphDepends listOrder twoPackages (.pkg (ascii "a")) 3 = some (.ok out) ∧
      Faithful (.pkg (ascii "a")) out := by
  have hrun : ∃ out, graphDepends listOrder twoPackages (.pkg (ascii "a")) 3 = some (.ok out) ∧
      out.asked = [ascii "a", ascii "b"] := ⟨_, rfl, by decide +kernel⟩
  obtain ⟨out, hrun, hasked⟩ := hrun
  refine ⟨out, hrun, (drawn_faithful_iff hrun).mpr ?_⟩
  intro p q hp hq hsame
  have hdrawn : ∀ r, Wanted twoPackages (.pkg (ascii "a")) r → r ∈ [ascii "a", ascii "b"] := by
    intro r hr
    have hmem := (drawn_iff hrun r).mpr hr
    rw [Output.drawn, hasked] at hmem
    exact hmem
  have hinj : ∀ r ∈ [ascii "a", ascii "b"], ∀ s ∈ [ascii "a", ascii "b"],
      pkgNodeName r = pkgNodeName s → r = s := by decide +kernel
  exact hinj p (hdrawn p hp) q (hdrawn q hq) (pkgNodeName_eq_iff.mpr hsame)

/-- What `make` says where "top" depends on two packages that a dash tells apart. -/
def dashPackages : Make where
  showTargets := some []
  showDepends pkg := if pkg = ascii "top" then some (ascii "a-b ab\n") else some []

/-- They are one node. -/
theorem drawn_merged : ∃ out,
    graphDepends listOrder dashPackages (.pkg (ascii "top")) 2 = some (.ok out) ∧
      ¬ Faithful (.pkg (ascii "top")) out := by
  have hrun : ∃ out, graphDepends listOrder dashPackages (.pkg (ascii "top")) 2 =
      some (.ok out) ∧ out.asked = [ascii "top", ascii "a-b", ascii "ab"] :=
    ⟨_, rfl, by decide +kernel⟩
  obtain ⟨out, hrun, hasked⟩ := hrun
  refine ⟨out, hrun, fun h => ?_⟩
  have hmem : ∀ r ∈ [ascii "top", ascii "a-b", ascii "ab"], r ∈ out.drawn (.pkg (ascii "top")) := by
    intro r hr
    rw [Output.drawn, hasked]
    exact hr
  have heq := h.injective _ (hmem (ascii "a-b") (by decide)) _ (hmem (ascii "ab") (by decide)) rfl
  exact absurd heq (by decide)

end Lichee.Scripts

import Lichee.Makedevs.Table

/- Where the files of a table come to stand. makedevs changes to the root directory first and
   then puts the root in front of every name, so a root that is not absolute is walked twice:
   the entries land under it only where the second walk leads back to it (`lands_iff`). -/
namespace Lichee.Makedevs
open Base

/-- The files of an entry whose first one is called `name`. -/
def files (e : Entry) (name : List UInt8) : List (List UInt8) :=
  if e.type = 0x64 ∨ e.type = 0x66 then [name]
  else if nodeType e.type = none then []
  else if e.count > 0 then
    (List.range e.count.toNat).map fun i => name ++ printInt (e.start + .ofNat i)
  else [name]

/-- The paths makedevs acts on for an entry. -/
def entryPaths (rootdir : List UInt8) (e : Entry) : List (List UInt8) :=
  files e (concatPathFile rootdir e.name)

/-- The entry of the root itself. -/
def rootEntry : Entry := { Entry.unread ⟨[], []⟩ with name := ascii "/", type := 0x64 }

/-- It is on a line of two fields. -/
theorem tableLine_root (long : Nat) :
    tableLine long ⟨[], []⟩ (ascii "/ d") = .entry rootEntry := by
  have hscan : scanEntry long ⟨[], []⟩ (ascii "/ d") = (2, rootEntry) := by rfl
  simp only [tableLine, hscan]
  rfl

section Root
variable {δ : Type} (tree : DirTree δ)

/-- What an entry acts on in the directory `cwd'` is what its names stand for under the root as
seen from `cwd`. -/
def Lands (cwd cwd' : δ) (rootdir : List UInt8) (e : Entry) : Prop :=
  List.Forall₂ (fun path name => tree.place cwd' path = tree.place cwd (rootdir ++ chSlash :: name))
    (entryPaths rootdir e) (files e e.name)

/-- The number of a node does not start with a slash. -/
theorem printInt_head (w : UInt32) : (printInt w).head? ≠ some chSlash := by
  rw [printInt]
  split
  · intro h
    have hdigit := isdigit_of_mem_decimal (List.mem_of_mem_head? h)
    exact absurd hdigit (by decide)
  · exact fun h => absurd (Option.some.inj h) (by decide)

/-- A root and a name are put together as the root and the longer name are. -/
theorem concatPathFile_append (rootdir name : List UInt8) {number : List UInt8}
    (h : number.head? ≠ some chSlash) :
    concatPathFile rootdir name ++ number = concatPathFile rootdir (name ++ number) := by
  have hdrop : (name ++ number).dropWhile (· == chSlash) =
      name.dropWhile (· == chSlash) ++ number := by
    induction name with
    | nil =>
      cases number with
      | nil => rfl
      | cons c number =>
        rw [List.nil_append, List.dropWhile_cons_of_neg]
        · rfl
        · simpa using h
    | cons c name ih =>
      rw [List.cons_append, List.dropWhile_cons, List.dropWhile_cons, ih]
      split
      · rfl
      · rfl
  rw [concatPathFile, concatPathFile, hdrop, List.append_assoc]

variable {tree}

/-- The root with a name behind it is the same place with one slash between them as with more. -/
theorem place_concatPathFile (cwd : δ) {rootdir : List UInt8} (hroot : rootdir ≠ [])
    (name : List UInt8) : tree.place cwd (concatPathFile rootdir name) =
      tree.walk (tree.start cwd rootdir) (components rootdir) >>=
        fun d => tree.placeFrom d name := by
  have hname : (fun d => tree.placeFrom d (name.dropWhile (· == chSlash))) =
      fun d => tree.placeFrom d name := by
    funext d
    exact DirTree.placeFrom_slashes d name
  rw [concatPathFile]
  split
  · next hlast =>
    obtain ⟨r, rfl⟩ : ∃ r, rootdir = r ++ [chSlash] := by
      rw [lastCharIs, beq_iff_eq] at hlast
      exact ⟨_, (List.dropLast_append_getLast? _ hlast).symm⟩
    rw [List.append_nil, List.append_assoc, List.singleton_append, DirTree.place,
      if_neg (by simp), DirTree.placeFrom_append, hname]
    rw [components_append, show components [] = [] from rfl, List.append_nil]
    congr 1
    cases r with
    | nil => rfl
    | cons c r => rfl
  · rw [List.append_assoc, List.singleton_append, DirTree.place_append cwd hroot, hname]

/-- Names of one file. -/
theorem lands_of_place {cwd cwd' : δ} {rootdir : List UInt8} {e : Entry}
    (h : ∀ name, tree.place cwd' (concatPathFile rootdir name) =
      tree.place cwd (rootdir ++ chSlash :: name)) : Lands tree cwd cwd' rootdir e := by
  rw [Lands, entryPaths, files, files]
  split
  · exact .cons (h e.name) .nil
  · split
    · exact .nil
    · split
      · rw [List.forall₂_map_left_iff, List.forall₂_map_right_iff, List.forall₂_same]
        intro i _
        rw [concatPathFile_append _ _ (printInt_head _)]
        exact h _
      · exact .cons (h e.name) .nil

/-- **Every entry of a table lands under the root just where the root is absolute or leads, taken
once more from the root, to the root itself.** -/
theorem lands_iff {cwd cwd' : δ} {rootdir : List UInt8}
    (hchdir : tree.chdir cwd rootdir = some cwd') (long : Nat) :
    (∀ stale line e, tableLine long stale line = .entry e → e.name.head? = some chSlash →
      ascii ".." ∉ components e.name → Lands tree cwd cwd' rootdir e) ↔
    rootdir.head? = some chSlash ∨ tree.walk cwd' (components rootdir) = some cwd' := by
  have hroot : rootdir ≠ [] := by
    rintro rfl
    cases hchdir
  have hwalk : tree.walk (tree.start cwd rootdir) (components rootdir) = some cwd' := by
    rw [← hchdir, DirTree.chdir, if_neg hroot]
  have hseen : ∀ name, tree.place cwd (rootdir ++ chSlash :: name) = tree.placeFrom cwd' name := by
    intro name
    rw [DirTree.place_append cwd hroot, hwalk]
    rfl
  refine ⟨?_, ?_⟩
  · intro hlands
    by_cases habs : rootdir.head? = some chSlash
    · exact .inl habs
    -- the entry of the root itself is enough
    · have hentry := hlands _ _ _ (tableLine_root long) rfl (by decide)
      have hplace := (List.forall₂_cons.mp hentry).1
      rw [hseen, place_concatPathFile cwd' hroot, DirTree.start, if_neg habs] at hplace
      obtain ⟨d, hd, hroot⟩ := Option.bind_eq_some_iff.mp hplace
      obtain rfl : d = cwd' := Place.dir.inj (Option.some.inj hroot)
      exact .inr hd
  · intro hcond
    refine fun stale line e _ _ _ => lands_of_place fun name => ?_
    rw [hseen, place_concatPathFile cwd' hroot]
    -- `rootdir` is put in front of the names although the process stands there already
    have hagain : tree.walk (tree.start cwd' rootdir) (components rootdir) = some cwd' := by
      by_cases habs : rootdir.head? = some chSlash
      · rw [DirTree.start, if_pos habs] at hwalk ⊢
        exact hwalk
      · rw [DirTree.start, if_neg habs]
        exact hcond.resolve_left habs
    rw [hagain]
    rfl

end Root

/-! ## A tree of three directories -/

inductive Dir where
  | root
  | work
  | target
  deriving DecidableEq, Repr

/-- The directories `/`, `/work` and `/work/target`. -/
def workTree : DirTree Dir where
  root := .root
  child d name :=
    if name = ascii "." then some d
    else match d with
      | .root => if name = ascii ".." then some .root
        else if name = ascii "work" then some .work else none
      | .work => if name = ascii ".." then some .root
        else if name = ascii "target" then some .target else none
      | .target => if name = ascii ".." then some .work else none

/-- The root by its absolute path. -/
theorem lands_iff_absolute : workTree.chdir .work (ascii "/work/target") = some .target ∧
    ∀ stale line e, tableLine 32 stale line = .entry e → e.name.head? = some chSlash →
      ascii ".." ∉ components e.name →
        Lands workTree .work .target (ascii "/work/target") e := by
  have hchdir : workTree.chdir .work (ascii "/work/target") = some .target := by decide +kernel
  exact ⟨hchdir, (lands_iff hchdir 32).mpr (.inl rfl)⟩

/-- The root as `target`, from the directory it is in. -/
theorem lands_apart : workTree.chdir .work (ascii "target") = some .target ∧
    ∃ e, tableLine 32 ⟨[], []⟩ (ascii "/dev d") = .entry e ∧ e.name.head? = some chSlash ∧
      ascii ".." ∉ components e.name ∧ ¬ Lands workTree .work .target (ascii "target") e := by
  refine ⟨by decide +kernel, { Entry.unread ⟨[], []⟩ with name := ascii "/dev", type := 0x64 },
    by decide +kernel, rfl, by decide, ?_⟩
  intro h
  have hplace := (List.forall₂_cons.mp h).1
  exact absurd hplace (by decide +kernel)

end Lichee.Makedevs

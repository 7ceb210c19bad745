import Mathlib.Data.Option.Basic

/- Path names, and where they lead in a tree of directories. A path is walked component by
   component, from the root where it starts with a slash and else from the current directory;
   its place is the directory its last name stands in, or the directory itself where it ends in
   a slash. A path put together with a slash is walked in two parts (`placeFrom_append`). -/
namespace Lichee.Base

abbrev chSlash : UInt8 := 0x2f

/-- The names between the slashes, `name` being the start of the first one. -/
def componentsFrom (name : List UInt8) : List UInt8 → List (List UInt8)
  | [] => if name = [] then [] else [name]
  | c :: path =>
    if c = chSlash then (if name = [] then [] else [name]) ++ componentsFrom [] path
    else componentsFrom (name ++ [c]) path

def components (path : List UInt8) : List (List UInt8) := componentsFrom [] path

/-- What stands behind the last slash. -/
def lastName (path : List UInt8) : List UInt8 :=
  (path.reverse.takeWhile (· != chSlash)).reverse

/-- What stands up to the last slash. -/
def dirPart (path : List UInt8) : List UInt8 :=
  (path.reverse.dropWhile (· != chSlash)).reverse

/-- A tree of directories of type `δ`; a component may lead anywhere, as a link does. -/
structure DirTree (δ : Type) where
  root : δ
  child : δ → List UInt8 → Option δ

/-- The place a path names. -/
inductive Place (δ : Type) where
  /-- the entry of a name in a directory, there or not -/
  | entry (dir : δ) (name : List UInt8)
  | dir (d : δ)
  deriving DecidableEq, Repr

namespace DirTree
variable {δ : Type} (tree : DirTree δ)

def walk : δ → List (List UInt8) → Option δ
  | d, [] => some d
  | d, c :: cs => tree.child d c >>= fun d => walk d cs

/-- The directory a walk along a path starts in. -/
def start (cwd : δ) (path : List UInt8) : δ :=
  if path.head? = some chSlash then tree.root else cwd

/-- `chdir`, along a path that is not empty. -/
def chdir (cwd : δ) (path : List UInt8) : Option δ :=
  if path = [] then none else tree.walk (tree.start cwd path) (components path)

/-- The place a path names as seen from `d`. -/
def placeFrom (d : δ) (path : List UInt8) : Option (Place δ) := do
  let d ← tree.walk d (components (dirPart path))
  if lastName path = [] then some (.dir d) else some (.entry d (lastName path))

/-- The place a path names in a process with the current directory `cwd`. -/
def place (cwd : δ) (path : List UInt8) : Option (Place δ) :=
  if path = [] then none else tree.placeFrom (tree.start cwd path) path

end DirTree

theorem componentsFrom_append (name a b : List UInt8) :
    componentsFrom name (a ++ chSlash :: b) = componentsFrom name a ++ components b := by
  induction a generalizing name with
  | nil =>
    simp only [List.nil_append, componentsFrom, components]
    rfl
  | cons c a ih =>
    rw [List.cons_append, componentsFrom, componentsFrom, ih, ih]
    split
    · rw [List.append_assoc]
    · rfl

theorem components_append (a b : List UInt8) :
    components (a ++ chSlash :: b) = components a ++ components b :=
  componentsFrom_append [] a b

/-- The last slash of a path stands behind a slash in it. -/
theorem lastName_append (a b : List UInt8) : lastName (a ++ chSlash :: b) = lastName b := by
  have h : ∀ r s : List UInt8, (r ++ chSlash :: s).takeWhile (· != chSlash) =
      r.takeWhile (· != chSlash) := by
    intro r s
    induction r with
    | nil => rw [List.nil_append, List.takeWhile_cons_of_neg (by decide), List.takeWhile_nil]
    | cons c r ih => rw [List.cons_append, List.takeWhile_cons, List.takeWhile_cons, ih]
  rw [lastName, lastName, List.reverse_append, List.reverse_cons, List.append_assoc,
    List.singleton_append, h]

theorem dirPart_append (a b : List UInt8) :
    dirPart (a ++ chSlash :: b) = a ++ chSlash :: dirPart b := by
  have h : ∀ r s : List UInt8, (r ++ chSlash :: s).dropWhile (· != chSlash) =
      r.dropWhile (· != chSlash) ++ chSlash :: s := by
    intro r s
    induction r with
    | nil => rw [List.nil_append, List.dropWhile_cons_of_neg (by decide)]; rfl
    | cons c r ih =>
      rw [List.cons_append, List.dropWhile_cons, List.dropWhile_cons, ih]
      split
      · rfl
      · rfl
  rw [dirPart, dirPart, List.reverse_append, List.reverse_cons, List.append_assoc,
    List.singleton_append, h, List.reverse_append, List.reverse_cons, List.reverse_reverse,
    List.append_assoc, List.singleton_append]

namespace DirTree
variable {δ : Type} {tree : DirTree δ}

theorem walk_append (d : δ) (cs cs' : List (List UInt8)) :
    tree.walk d (cs ++ cs') = tree.walk d cs >>= fun d => tree.walk d cs' := by
  induction cs generalizing d with
  | nil => rfl
  | cons c cs ih =>
    rw [List.cons_append, walk, walk, bind_assoc]
    congr 1
    funext d
    exact ih d

/-- A path of two parts is walked along the one, then along the other. -/
theorem placeFrom_append (d : δ) (a b : List UInt8) : tree.placeFrom d (a ++ chSlash :: b) =
    tree.walk d (components a) >>= fun d => tree.placeFrom d b := by
  simp only [placeFrom, dirPart_append, lastName_append, components_append, walk_append, bind_assoc]

/-- Slashes in front change nothing. -/
theorem placeFrom_slashes (d : δ) (path : List UInt8) :
    tree.placeFrom d (path.dropWhile (· == chSlash)) = tree.placeFrom d path := by
  induction path with
  | nil => rfl
  | cons c path ih =>
    by_cases hc : c = chSlash
    · subst hc
      rw [List.dropWhile_cons_of_pos (by decide), ih]
      exact (placeFrom_append d [] path).symm
    · rw [List.dropWhile_cons_of_neg (by simpa using hc)]

theorem start_append (cwd : δ) {a : List UInt8} (ha : a ≠ []) (b : List UInt8) :
    tree.start cwd (a ++ b) = tree.start cwd a := by
  obtain ⟨c, a, rfl⟩ := List.exists_cons_of_ne_nil ha
  rfl

/-- A directory, with a name behind it. -/
theorem place_append (cwd : δ) {a : List UInt8} (ha : a ≠ []) (b : List UInt8) :
    tree.place cwd (a ++ chSlash :: b) =
      tree.walk (tree.start cwd a) (components a) >>= fun d => tree.placeFrom d b := by
  rw [place, if_neg (by simp), start_append cwd ha, placeFrom_append]

end DirTree

end Lichee.Base

import Lichee.Base.Loop
import Lichee.Makedevs.Table

/- `bb_make_directory` of makedevs (makedevs.c). To make the parents first it cuts the caller's
   path behind each slash in turn, calls `mkdir`, and puts the byte back; the umask is narrowed
   meanwhile. Every exit restores the umask, but the one from a parent that cannot be made leaves
   the path cut there (`makeDirectory_clean_iff`), and main goes on with what is left of it. -/
namespace Lichee.Makedevs
open Base

/-! ## The system -/

abbrev EEXIST : Nat := 17
abbrev EISDIR : Nat := 21

/-- The type bits of a mode. -/
abbrev S_IFMT : UInt32 := 0o170000

/-- The permission bits a process withholds. -/
abbrev Umask := BitVec 9

/-- The calls that make directories, over a file system of type `σ`: `mkdir` and `chmod` return
an `errno` where they fail, and `stat` the mode of a file there is. -/
structure System (σ : Type) where
  mkdir : List UInt8 → UInt32 → Umask → σ → Option Nat × σ
  chmod : List UInt8 → UInt32 → σ → Option Nat × σ
  stat : List UInt8 → σ → Option UInt32
  /-- what `mkdir` made is a directory -/
  mkdir_dir : ∀ path mode mask w w', mkdir path mode mask w = (none, w') →
    ∃ st, stat path w' = some st ∧ st &&& S_IFMT = S_IFDIR
  /-- `chmod` changes no file's type -/
  chmod_dir : ∀ path mode w w', chmod path mode w = (none, w') →
    (∃ st, stat path w = some st ∧ st &&& S_IFMT = S_IFDIR) →
      ∃ st, stat path w' = some st ∧ st &&& S_IFMT = S_IFDIR

variable {σ : Type} (sys : System σ)

/-- `stat` finds a directory. -/
def System.isDir (path : List UInt8) (w : σ) : Bool :=
  match sys.stat path w with
  | some st => st &&& S_IFMT == S_IFDIR
  | none => false

/-! ## The function -/

abbrev FILEUTILS_RECUR : UInt32 := 4

/-- The message of a failure. -/
inductive FailMsg where
  | create
  | setPermissionsOf
  deriving DecidableEq, Repr

/-- The variables of the loop: the bytes of the path's buffer, the position `s`, the umask of the
process, and the file system. -/
structure Making (σ : Type) where
  path : List UInt8
  s : Nat
  umask : Umask
  world : σ

/-- What the function leaves behind. -/
structure Made (σ : Type) where
  ret : Int
  path : List UInt8
  umask : Umask
  world : σ
  failMsg : Option FailMsg

/-- Where the bytes of a class end that start at `s`. -/
def skip (p : UInt8 → Bool) (buf : List UInt8) (s : Nat) : Nat :=
  s + ((buf.drop s).takeWhile p).length

/-- "Get the parent": the path, cut behind the next slashes if there are any, the position, and
the byte there, 0 where the path ends. -/
def getParent (path : List UInt8) (s : Nat) : List UInt8 × Nat × UInt8 :=
  let s := skip (fun c => c != 0 && c != chSlash) path s
  if path.getD s 0 = chSlash then
    let s := skip (· == chSlash) path s
    (path.set s 0, s, path.getD s 0)
  else (path, s, 0)

/-- The start of an iteration: without `FILEUTILS_RECUR` there is only the full path. -/
def cut (flags : UInt32) (path : List UInt8) (s : Nat) : List UInt8 × Nat × UInt8 :=
  if flags &&& FILEUTILS_RECUR ≠ 0 then getParent path s else (path, s, 0)

/-- One iteration; an error is what the function returns. -/
def makeStep (mask : Umask) (mode : Int) (flags : UInt32) (m : Making σ) :
    Except (Made σ) (Making σ) :=
  let (path, s, c) := cut flags m.path m.s
  match sys.mkdir (cstr path) 0o777 m.umask m.world with
  | (some errno, w) =>
    if (errno ≠ EEXIST ∧ errno ≠ EISDIR) ∨ ¬ flags &&& FILEUTILS_RECUR ≠ 0 ∨
        sys.isDir (cstr path) w = false then
      .error ⟨-1, path, mask, w, some .create⟩
    else if c = 0 then .error ⟨0, path, mask, w, none⟩
    else .ok ⟨path.set s c, s, m.umask, w⟩
  | (none, w) =>
    if c = 0 then
      if mode ≠ -1 then
        match sys.chmod (cstr path) (.ofInt mode) w with
        | (some _, w) => .error ⟨-1, path, mask, w, some .setPermissionsOf⟩
        | (none, w) => .error ⟨0, path, mask, w, none⟩
      else .error ⟨0, path, mask, w, none⟩
    else .ok ⟨path.set s c, s, m.umask, w⟩

/-- The umask the directories are made under, and their mode. -/
def maskMode (mask : Umask) (mode : Int) : Umask × Int :=
  if mode = -1 then (mask, (0o777 &&& ~~~ mask).toNat) else (mask &&& ~~~ 0o300, mode)

/-- `bb_make_directory`, of a path of bytes other than NUL, in a process with the umask `mask`. -/
def bbMakeDirectory (path : List UInt8) (mode : Int) (flags : UInt32) (mask : Umask) (w : σ) :
    Option (Made σ) :=
  let (umask, mode) := maskMode mask mode
  match whileLoop (fun _ => true) (makeStep sys mask mode flags) (path.length + 1)
    ⟨path ++ [0], 0, umask, w⟩ with
  | some (.error r) => some r
  | _ => none

/-- The string the `chown` and `chmod` of a directory entry act on: main goes on with the path the
function leaves. -/
def directoryTarget (long : Nat) (fullName : List UInt8) (e : Entry) (w : σ) :
    Option (List UInt8) :=
  let mode := Int.bmod (e.mode ||| S_IFDIR).toNat (2 ^ long)
  (bbMakeDirectory sys fullName mode FILEUTILS_RECUR 0 w).map fun r => cstr r.path

/-- The function has undone its effects, and a 0 says that the path names a directory. -/
structure Clean (path : List UInt8) (mask : Umask) (r : Made σ) : Prop where
  umask_eq : r.umask = mask
  path_eq : r.path = path ++ [0]
  dir : r.ret = 0 → sys.isDir path r.world = true

/-! ## Parents -/

/-- The parents of a path whose bytes are `front` and others behind them: what stands in front of
each byte that is no slash and follows one. -/
def parentsFrom (front : List UInt8) : List UInt8 → List (List UInt8)
  | c :: d :: rest =>
    if c = chSlash ∧ d ≠ chSlash then (front ++ [c]) :: parentsFrom (front ++ [c]) (d :: rest)
    else parentsFrom (front ++ [c]) (d :: rest)
  | _ => []

def parents (path : List UInt8) : List (List UInt8) := parentsFrom [] path

/-- Each of the parents, in turn, is made or is a directory already. -/
def Stand (umask : Umask) : σ → List (List UInt8) → Prop
  | _, [] => True
  | w, p :: ps =>
    match sys.mkdir p 0o777 umask w with
    | (some errno, w) =>
      (errno = EEXIST ∨ errno = EISDIR) ∧ sys.isDir p w = true ∧ Stand umask w ps
    | (none, w) => Stand umask w ps

theorem parentsFrom_name {a : List UInt8} (ha : ∀ c ∈ a, c ≠ chSlash) (front t : List UInt8) :
    parentsFrom front (a ++ t) = parentsFrom (front ++ a) t := by
  induction a generalizing front with
  | nil => rw [List.nil_append, List.append_nil]
  | cons c a ih =>
    have hc : c ≠ chSlash := ha c List.mem_cons_self
    have ih := ih (fun c hc => ha c (List.mem_cons_of_mem _ hc)) (front ++ [c])
    rw [List.append_assoc, List.singleton_append] at ih
    rw [← ih, List.cons_append]
    generalize a ++ t = r
    cases r with
    | nil => rfl
    | cons d r => rw [parentsFrom, if_neg fun h => hc h.1]

/-- Slashes at the end are behind no parent. -/
theorem parentsFrom_end {sl : List UInt8} (hsl : ∀ c ∈ sl, c = chSlash) (front : List UInt8) :
    parentsFrom front sl = [] := by
  induction sl generalizing front with
  | nil => rfl
  | cons c sl ih =>
    cases sl with
    | nil => rfl
    | cons d sl =>
      have hd : d = chSlash := hsl d (List.mem_cons_of_mem _ List.mem_cons_self)
      rw [parentsFrom, if_neg fun h => h.2 hd]
      exact ih (fun c hc => hsl c (List.mem_cons_of_mem _ hc)) _

theorem parentsFrom_slashes {sl : List UInt8} (hsl : ∀ c ∈ sl, c = chSlash) (hne : sl ≠ [])
    {d : UInt8} (hd : d ≠ chSlash) (front more : List UInt8) :
    parentsFrom front (sl ++ d :: more) =
      (front ++ sl) :: parentsFrom (front ++ sl) (d :: more) := by
  induction sl generalizing front with
  | nil => exact absurd rfl hne
  | cons c sl ih =>
    cases sl with
    | nil => rw [List.singleton_append, parentsFrom, if_pos ⟨hsl c List.mem_cons_self, hd⟩]
    | cons e sl =>
      have he : e = chSlash := hsl e (List.mem_cons_of_mem _ List.mem_cons_self)
      have ih := ih (fun c hc => hsl c (List.mem_cons_of_mem _ hc)) (List.cons_ne_nil _ _)
        (front ++ [c])
      rw [List.append_assoc, List.singleton_append] at ih
      rw [← ih, List.cons_append, List.cons_append, parentsFrom, if_neg fun h => h.2 he]

/-! ## One iteration -/

theorem skip_append {p : UInt8 → Bool} {a : List UInt8} (ha : ∀ c ∈ a, p c = true) {x : UInt8}
    (hx : p x = false) (front t : List UInt8) :
    skip p (front ++ (a ++ x :: t)) front.length = (front ++ a).length := by
  rw [skip, List.drop_left, List.takeWhile_append_of_pos ha,
    List.takeWhile_cons_of_neg (by simp [hx]), List.append_nil, List.length_append]

theorem getD_append_length (front t : List UInt8) (x : UInt8) :
    (front ++ x :: t).getD front.length 0 = x := by
  simp

theorem set_append_length (front t : List UInt8) (x y : UInt8) :
    (front ++ x :: t).set front.length y = front ++ y :: t := by
  simp

section Parent
variable (front : List UInt8) {a sl : List UInt8}

/-- The next slashes are followed by the byte `c`: the path is cut there. -/
theorem getParent_slashes (ha : ∀ c ∈ a, c ≠ 0 ∧ c ≠ chSlash) (hsl : ∀ c ∈ sl, c = chSlash)
    (hne : sl ≠ []) {c : UInt8} (hc : c ≠ chSlash) (t : List UInt8) :
    getParent (front ++ (a ++ (sl ++ c :: t))) front.length =
      (front ++ a ++ sl ++ 0 :: t, (front ++ a ++ sl).length, c) := by
  obtain ⟨d, sl', rfl⟩ := List.exists_cons_of_ne_nil hne
  obtain rfl : d = chSlash := hsl d List.mem_cons_self
  have hname : skip (fun c => c != 0 && c != chSlash)
      (front ++ (a ++ (chSlash :: sl' ++ c :: t))) front.length = (front ++ a).length := by
    apply skip_append
    · intro c hc
      simpa using ha c hc
    · rfl
  have hend : skip (· == chSlash) (front ++ a ++ (chSlash :: sl' ++ c :: t))
      (front ++ a).length = (front ++ a ++ chSlash :: sl').length := by
    apply skip_append
    · intro c hc
      simpa using hsl c hc
    · simpa using hc
  rw [getParent, hname, ← List.append_assoc front]
  dsimp only
  rw [List.cons_append, getD_append_length, if_pos rfl, ← List.cons_append, hend,
    ← List.append_assoc, set_append_length, getD_append_length]

/-- No slash is left. -/
theorem getParent_name (ha : ∀ c ∈ a, c ≠ 0 ∧ c ≠ chSlash) :
    getParent (front ++ (a ++ [0])) front.length =
      (front ++ (a ++ [0]), (front ++ a).length, 0) := by
  have hname : skip (fun c => c != 0 && c != chSlash) (front ++ (a ++ [0])) front.length =
      (front ++ a).length := by
    apply skip_append
    · intro c hc
      simpa using ha c hc
    · rfl
  rw [getParent, hname]
  dsimp only
  rw [← List.append_assoc, getD_append_length, if_neg (by decide)]

/-- Behind the last slashes the path ends: it is left as it is. -/
theorem getParent_last (ha : ∀ c ∈ a, c ≠ 0 ∧ c ≠ chSlash) (hsl : ∀ c ∈ sl, c = chSlash) :
    ∃ s, getParent (front ++ (a ++ sl) ++ [0]) front.length =
      (front ++ (a ++ sl) ++ [0], s, 0) := by
  cases sl with
  | nil =>
    refine ⟨(front ++ a).length, ?_⟩
    rw [List.append_nil, List.append_assoc]
    exact getParent_name front ha
  | cons d sl =>
    refine ⟨(front ++ a ++ d :: sl).length, ?_⟩
    have h := getParent_slashes front ha hsl (List.cons_ne_nil _ _)
      (show (0 : UInt8) ≠ chSlash by decide) []
    simp only [List.append_assoc] at h ⊢
    exact h

/-- What is left of a path: a name and slashes, and behind them the end or another name. -/
theorem rest_cases (rest : List UInt8) (h0 : 0 ∉ rest) :
    ∃ a sl, (∀ c ∈ a, c ≠ 0 ∧ c ≠ chSlash) ∧ (∀ c ∈ sl, c = chSlash) ∧
      (rest = a ++ sl ∨ ∃ c more, c ≠ chSlash ∧ sl ≠ [] ∧ rest = a ++ (sl ++ c :: more)) := by
  induction rest with
  | nil => exact ⟨[], [], by simp, by simp, .inl rfl⟩
  | cons d rest ih =>
    obtain ⟨hd, h0⟩ := not_or.mp (mt List.mem_cons.mpr h0)
    obtain ⟨a, sl, ha, hsl, hrest⟩ := ih h0
    by_cases hslash : d = chSlash
    · cases a with
      | nil =>
        refine ⟨[], d :: sl, by simp, ?_, ?_⟩
        · intro c hc
          exact (List.mem_cons.mp hc).elim (· ▸ hslash) (hsl c)
        · apply hrest.imp
          · exact congrArg (d :: ·)
          · intro ⟨c, more, hc, _, hrest⟩
            exact ⟨c, more, hc, List.cons_ne_nil _ _, congrArg (d :: ·) hrest⟩
      | cons b a =>
        have hb := (ha b List.mem_cons_self).2
        refine ⟨[], [d], by simp, by simpa using hslash, .inr ?_⟩
        obtain hrest | ⟨c, more, -, -, hrest⟩ := hrest
        · exact ⟨b, a ++ sl, hb, List.cons_ne_nil _ _, congrArg (d :: ·) hrest⟩
        · exact ⟨b, _, hb, List.cons_ne_nil _ _, congrArg (d :: ·) hrest⟩
    · refine ⟨d :: a, sl, ?_, hsl, ?_⟩
      · intro c hc
        exact (List.mem_cons.mp hc).elim (· ▸ ⟨Ne.symm hd, hslash⟩) (ha c)
      · apply hrest.imp
        · exact congrArg (d :: ·)
        · intro ⟨c, more, hc, hne, hrest⟩
          exact ⟨c, more, hc, hne, congrArg (d :: ·) hrest⟩

end Parent

section Step
variable {sys : System σ} {flags : UInt32}

theorem isDir_iff {path : List UInt8} {w : σ} : sys.isDir path w = true ↔
    ∃ st, sys.stat path w = some st ∧ st &&& S_IFMT = S_IFDIR := by
  rw [System.isDir]
  cases sys.stat path w with
  | none => simp
  | some st => simp

/-- With the full path in front of it, the iteration returns, with nothing left changed. -/
theorem makeStep_last (sys : System σ) (mask : Umask) (mode : Int) (m : Making σ)
    {path : List UInt8} (hpath : 0 ∉ path) {s : Nat}
    (hcut : cut flags m.path m.s = (path ++ [0], s, 0)) :
    ∃ r, makeStep sys mask mode flags m = .error r ∧ Clean sys path mask r := by
  have hcstr : cstr (path ++ [0]) = path := cstr_append_nul hpath []
  unfold makeStep
  rw [hcut]
  dsimp only
  rw [hcstr]
  split
  · next errno w hmk =>
    split
    · exact ⟨_, rfl, rfl, rfl, fun (h : (-1 : Int) = 0) => absurd h (by decide)⟩
    · next hdir =>
      rw [if_pos rfl]
      refine ⟨_, rfl, rfl, rfl, fun _ => ?_⟩
      simpa using (not_or.mp (not_or.mp hdir).2).2
  · next w hmk =>
    have hdir := sys.mkdir_dir _ _ _ _ _ hmk
    rw [if_pos rfl]
    split
    · split
      · exact ⟨_, rfl, rfl, rfl, fun (h : (-1 : Int) = 0) => absurd h (by decide)⟩
      · next w' hch =>
        exact ⟨_, rfl, rfl, rfl, fun _ => isDir_iff.mpr (sys.chmod_dir _ _ _ _ hch hdir)⟩
    · exact ⟨_, rfl, rfl, rfl, fun _ => isDir_iff.mpr hdir⟩

/-- A parent that is made, or that is a directory already, is left behind. -/
theorem makeStep_parent (sys : System σ) (mask : Umask) (mode : Int) (m : Making σ)
    {p t : List UInt8} (hp : 0 ∉ p) {c : UInt8} (hc : c ≠ 0) (hrec : flags &&& FILEUTILS_RECUR ≠ 0)
    (hcut : cut flags m.path m.s = (p ++ 0 :: t, p.length, c)) :
    makeStep sys mask mode flags m =
      match sys.mkdir p 0o777 m.umask m.world with
      | (some errno, w) =>
        if (errno = EEXIST ∨ errno = EISDIR) ∧ sys.isDir p w = true then
          .ok ⟨p ++ c :: t, p.length, m.umask, w⟩
        else .error ⟨-1, p ++ 0 :: t, mask, w, some .create⟩
      | (none, w) => .ok ⟨p ++ c :: t, p.length, m.umask, w⟩ := by
  have hcstr : cstr (p ++ 0 :: t) = p := cstr_append_nul hp t
  unfold makeStep
  rw [hcut]
  dsimp only
  rw [hcstr, set_append_length]
  cases hmk : sys.mkdir p 0o777 m.umask m.world with
  | mk errno w =>
    cases errno with
    | none =>
      dsimp only
      rw [if_neg hc]
    | some errno =>
      dsimp only
      rw [if_neg hc]
      by_cases hstand : (errno = EEXIST ∨ errno = EISDIR) ∧ sys.isDir p w = true
      · rw [if_pos hstand, if_neg]
        simp only [not_or, not_and_or, not_not, Bool.not_eq_false]
        exact ⟨hstand.1, hrec, hstand.2⟩
      · rw [if_neg hstand, if_pos]
        simp only [not_and_or, not_or, Bool.not_eq_true] at hstand
        exact hstand.imp id .inr

end Step

/-! ## The loop -/

section Run
variable (sys : System σ) (mask : Umask) (mode : Int) (flags : UInt32)

/-- What the function returns with: the umask it found, a directory behind a 0, and the caller's
path, which is whole just where `stand` holds. -/
structure Returned (path : List UInt8) (mask : Umask) (stand : Prop) (r : Made σ) : Prop where
  umask_eq : r.umask = mask
  dir : r.ret = 0 → sys.isDir path r.world = true
  string_iff : cstr r.path = path ↔ r.path = path ++ [0]
  path_iff : r.path = path ++ [0] ↔ stand

variable {sys mask} in
theorem Clean.returned {path : List UInt8} {r : Made σ} (h : Clean sys path mask r)
    (hpath : 0 ∉ path) {stand : Prop} (hstand : stand) : Returned sys path mask stand r where
  umask_eq := h.umask_eq
  dir := h.dir
  string_iff := by
    rw [h.path_eq]
    exact iff_of_true (cstr_append_nul hpath []) rfl
  path_iff := iff_of_true h.path_eq hstand

variable {sys mask} in
theorem Returned.congr {path : List UInt8} {stand stand' : Prop} {r : Made σ}
    (h : Returned sys path mask stand r) (hiff : stand ↔ stand') :
    Returned sys path mask stand' r :=
  ⟨h.umask_eq, h.dir, h.string_iff, h.path_iff.trans hiff⟩

/-- A path that was left cut behind a parent. -/
theorem returned_cut {p more : List UInt8} {c : UInt8} (hp : 0 ∉ p) (hc : c ≠ 0) {stand : Prop}
    (hstand : ¬ stand) (w : σ) (msg : Option FailMsg) :
    Returned sys (p ++ c :: more) mask stand ⟨-1, p ++ 0 :: (more ++ [0]), mask, w, msg⟩ := by
  have hcut : p ++ 0 :: (more ++ [0]) ≠ p ++ c :: more ++ [0] := by
    simp only [List.append_assoc, List.cons_append, ne_eq, List.append_cancel_left_eq]
    intro h
    exact hc (List.cons.inj h).1.symm
  have hstring : cstr (p ++ 0 :: (more ++ [0])) ≠ p ++ c :: more := by
    rw [cstr_append_nul hp]
    simp
  exact ⟨rfl, fun (h : (-1 : Int) = 0) => absurd h (by decide), iff_of_false hstring hcut,
    iff_of_false hcut hstand⟩

/-- An iteration at a parent; `hnext` is the rest of the loop where the parent is left behind. -/
theorem make_parent (umask : Umask) {flags : UInt32} (hrec : flags &&& FILEUTILS_RECUR ≠ 0)
    {m : Making σ} (hmask : m.umask = umask) {p more : List UInt8} {c : UInt8} (hp : 0 ∉ p)
    (hc : c ≠ 0) (hcut : cut flags m.path m.s = (p ++ 0 :: (more ++ [0]), p.length, c))
    {ps : List (List UInt8)} {n : Nat}
    (hnext : ∀ w, ∃ r, whileLoop (fun _ => true) (makeStep sys mask mode flags) n
        ⟨p ++ c :: (more ++ [0]), p.length, umask, w⟩ = some (.error r) ∧
      Returned sys (p ++ c :: more) mask (Stand sys umask w ps) r) :
    ∃ r, whileLoop (fun _ => true) (makeStep sys mask mode flags) (n + 1) m = some (.error r) ∧
      Returned sys (p ++ c :: more) mask (Stand sys umask m.world (p :: ps)) r := by
  have hstep := makeStep_parent sys mask mode m hp hc hrec hcut
  rw [hmask] at hstep
  rw [Stand]
  cases hmk : sys.mkdir p 0o777 umask m.world with
  | mk errno w =>
    rw [hmk] at hstep
    cases errno with
    | none =>
      rw [whileLoop_next rfl hstep]
      exact hnext w
    | some errno =>
      dsimp only at hstep ⊢
      by_cases hstand : (errno = EEXIST ∨ errno = EISDIR) ∧ sys.isDir p w = true
      · rw [if_pos hstand] at hstep
        obtain ⟨r, hr, hret⟩ := hnext w
        refine ⟨r, ?_, hret.congr (by tauto)⟩
        rw [whileLoop_next rfl hstep]
        exact hr
      · rw [if_neg hstand] at hstep
        exact ⟨_, whileLoop_error rfl hstep n,
          returned_cut sys mask hp hc (fun h => hstand ⟨h.1, h.2.1⟩) w _⟩

/-- From any iteration on the function returns, and has put the path together again just where
the parents left stand. Induction on the iterations that are left. -/
theorem make_run (umask : Umask) {flags : UInt32} (hrec : flags &&& FILEUTILS_RECUR ≠ 0) {n : Nat}
    {front rest : List UInt8} (hn : rest.length < n) (hpath : 0 ∉ front ++ rest) (w : σ) :
    ∃ r, whileLoop (fun _ => true) (makeStep sys mask mode flags) n
        ⟨front ++ rest ++ [0], front.length, umask, w⟩ = some (.error r) ∧
      Returned sys (front ++ rest) mask (Stand sys umask w (parentsFrom front rest)) r := by
  induction n generalizing front rest w with
  | zero => omega
  | succ n ih =>
    have hrest : 0 ∉ rest := fun h => hpath (List.mem_append_right _ h)
    obtain ⟨a, sl, ha, hsl, rfl | ⟨c, more, hc, hne, rfl⟩⟩ := rest_cases rest hrest
    -- no parent is left: the full path
    · obtain ⟨s, hget⟩ := getParent_last front ha hsl
      obtain ⟨r, hstep, hclean⟩ : ∃ r, makeStep sys mask mode flags
          ⟨front ++ (a ++ sl) ++ [0], front.length, umask, w⟩ = .error r ∧
            Clean sys (front ++ (a ++ sl)) mask r :=
        makeStep_last sys mask mode _ hpath ((if_pos hrec).trans hget)
      refine ⟨r, whileLoop_error rfl hstep n, hclean.returned hpath ?_⟩
      rw [parentsFrom_name fun c hc => (ha c hc).2, parentsFrom_end hsl]
      exact trivial
    · -- the parent in front of `c`
      have hfront : front ++ (a ++ (sl ++ c :: more)) = front ++ a ++ sl ++ c :: more := by simp
      rw [hfront] at hpath ⊢
      have hp : 0 ∉ front ++ a ++ sl := fun h => hpath (List.mem_append_left _ h)
      have hc0 : c ≠ 0 := by
        rintro rfl
        exact hpath (List.mem_append_right _ List.mem_cons_self)
      have hget := getParent_slashes front ha hsl hne hc (more ++ [0])
      have hbuf : front ++ a ++ sl ++ c :: more ++ [0] =
          front ++ (a ++ (sl ++ c :: (more ++ [0]))) := by simp
      have hlen : (c :: more).length < n := by
        have := List.length_pos_iff.mpr hne
        simp only [List.length_append, List.length_cons] at hn ⊢
        omega
      rw [parentsFrom_name fun c hc => (ha c hc).2, parentsFrom_slashes hsl hne hc]
      refine make_parent sys mask mode umask hrec rfl hp hc0 ((if_pos hrec).trans (hbuf ▸ hget)) ?_
      intro w'
      have hnext := ih hlen hpath w'
      rwa [List.append_assoc _ (c :: more), List.cons_append] at hnext

/-- What the function returns with, on every path. -/
theorem makeDirectory_returns {path : List UInt8} (hpath : 0 ∉ path) (w : σ) :
    ∃ r, bbMakeDirectory sys path mode flags mask w = some r ∧
      Returned sys path mask
        (flags &&& FILEUTILS_RECUR ≠ 0 → Stand sys (maskMode mask mode).1 w (parents path)) r := by
  unfold bbMakeDirectory
  dsimp only
  by_cases hrec : flags &&& FILEUTILS_RECUR ≠ 0
  · obtain ⟨r, hr, hrun⟩ := make_run sys mask (maskMode mask mode).2 (maskMode mask mode).1
      hrec (Nat.lt_succ_self path.length) (show 0 ∉ [] ++ path from hpath) w
    rw [List.nil_append] at hr hrun
    refine ⟨r, ?_, hrun.congr (by rw [parents]; tauto)⟩
    rw [List.length_nil] at hr
    rw [hr]
  · -- the full path at once
    obtain ⟨r, hstep, hclean⟩ := makeStep_last sys mask (maskMode mask mode).2
      ⟨path ++ [0], 0, (maskMode mask mode).1, w⟩ hpath (if_neg hrec)
    refine ⟨r, ?_, hclean.returned hpath fun h => absurd h hrec⟩
    rw [whileLoop_error rfl hstep]

/-- **The function leaves everything as it was just where no parent is refused.** -/
theorem makeDirectory_clean_iff {path : List UInt8} (hpath : 0 ∉ path) (w : σ) :
    ∃ r, bbMakeDirectory sys path mode flags mask w = some r ∧
      (Clean sys path mask r ↔
        (flags &&& FILEUTILS_RECUR ≠ 0 → Stand sys (maskMode mask mode).1 w (parents path))) := by
  obtain ⟨r, hr, hret⟩ := makeDirectory_returns sys mask mode flags hpath w
  refine ⟨r, hr, ?_⟩
  rw [← hret.path_iff]
  exact ⟨fun h => h.path_eq, fun h => ⟨hret.umask_eq, h, hret.dir⟩⟩

end Run

/-! ## Two file systems -/

/-- A file system that knows the paths of its directories, and makes each once. -/
def madeOnce : System (List (List UInt8)) where
  mkdir path _ _ w := if path ∈ w then (some EEXIST, w) else (none, path :: w)
  chmod path _ w := if path ∈ w then (none, w) else (some 2, w)
  stat path w := if path ∈ w then some (S_IFDIR ||| 0o755) else none
  mkdir_dir path mode mask w w' h := by
    split at h
    · cases h
    · cases h
      exact ⟨_, if_pos List.mem_cons_self, by decide⟩
  chmod_dir path mode w w' h hdir := by
    split at h
    · cases h
      exact hdir
    · cases h

/-- A file system that is read-only and empty. -/
def readOnly : System Unit where
  mkdir _ _ _ w := (some 30, w)
  chmod _ _ w := (some 30, w)
  stat _ _ := none
  mkdir_dir path mode mask w w' h := by cases h
  chmod_dir path mode w w' h hdir := by cases h

/-- A parent that is there, and one that is made. -/
theorem makeDirectory_clean_iff_dev :
    ∃ r, bbMakeDirectory madeOnce (ascii "/dev/pts") 0o40755 FILEUTILS_RECUR 0
        [ascii "/"] = some r ∧ Clean madeOnce (ascii "/dev/pts") 0 r := by
  obtain ⟨r, hr, hclean⟩ := makeDirectory_clean_iff madeOnce 0 0o40755 FILEUTILS_RECUR
    (show 0 ∉ ascii "/dev/pts" by decide) [ascii "/"]
  refine ⟨r, hr, hclean.mpr fun _ => ?_⟩
  have hparents : parents (ascii "/dev/pts") = [ascii "/", ascii "/dev/"] := by decide +kernel
  rw [hparents]
  exact ⟨.inl rfl, by decide +kernel, trivial⟩

/-- On a read-only file system the path is left cut behind its first slash. -/
theorem makeDirectory_unclean :
    ∃ r, bbMakeDirectory readOnly (ascii "target/dev") 0o40755 FILEUTILS_RECUR 0 () = some r ∧
      r.ret = -1 ∧ r.path = ascii "target/" ++ 0 :: ascii "ev" ++ [0] ∧
        ¬ Clean readOnly (ascii "target/dev") 0 r := by
  refine ⟨⟨-1, ascii "target/" ++ 0 :: ascii "ev" ++ [0], 0, (), some .create⟩, by rfl, rfl,
    rfl, ?_⟩
  intro h
  exact absurd h.path_eq (by decide +kernel)

/-- A directory entry gives its owner and mode to the entry's own path just where no parent is
refused. -/
theorem directoryTarget_iff {σ : Type} (sys : System σ) {fullName : List UInt8}
    (hname : 0 ∉ fullName) (long : Nat) (e : Entry) (w : σ) :
    directoryTarget sys long fullName e w = some fullName ↔
      Stand sys (maskMode 0 (Int.bmod (e.mode ||| S_IFDIR).toNat (2 ^ long))).1 w
        (parents fullName) := by
  obtain ⟨r, hr, hret⟩ := makeDirectory_returns sys 0
    (Int.bmod (e.mode ||| S_IFDIR).toNat (2 ^ long)) FILEUTILS_RECUR hname w
  unfold directoryTarget
  dsimp only
  rw [hr, Option.map_some, Option.some_inj, hret.string_iff, hret.path_iff]
  exact ⟨fun h => h (by decide), fun h _ => h⟩

theorem directoryTarget_iff_pts :
    directoryTarget madeOnce 32 (ascii "/dev/pts")
      { Entry.unread ⟨[], []⟩ with name := ascii "/dev/pts", type := 0x64 } [ascii "/"] =
        some (ascii "/dev/pts") := by
  refine (directoryTarget_iff madeOnce (by decide) 32 _ _).mpr ?_
  have hparents : parents (ascii "/dev/pts") = [ascii "/", ascii "/dev/"] := by decide +kernel
  rw [hparents]
  exact ⟨.inl rfl, by decide +kernel, trivial⟩

end Lichee.Makedevs

import Lichee.Base.Device
import Lichee.Base.Paths
import Lichee.Base.Scanf

/- The device table of makedevs (makedevs.c). A line names a file, its type and up to eight
   more fields; a line with a count stands for a range of nodes, whose names end in numbers
   counted up from `start` and whose minors grow by `increment`. Each number of a line is at
   most 0xfffff, but nothing bounds a minor that is computed from three of them: `expands_iff`
   says which ranges stay below 2^20. -/
namespace Lichee.Makedevs
open Base

abbrev chHash : UInt8 := 0x23

/-! ## Lines -/

/-- The fields of a line. -/
structure Entry where
  name : List UInt8
  type : UInt8
  mode : UInt32
  user : List UInt8
  group : List UInt8
  major : UInt32
  minor : UInt32
  start : UInt32
  increment : UInt32
  count : UInt32
  deriving DecidableEq, Repr

/-- What the arrays `user` and `group` hold when a line does not fill them. -/
structure Stale where
  user : List UInt8
  group : List UInt8
  deriving DecidableEq, Repr

/-- The variables before a line is read. -/
def Entry.unread (stale : Stale) : Entry where
  name := []
  type := 0
  mode := 0o755
  user := stale.user
  group := stale.group
  major := 0
  minor := 0
  start := 0
  increment := 0
  count := 0

/-- `sscanf(line, "%40s %c %o %40s %40s %u %u %u %u %u", ...)`: the number of conversions, and
the variables. -/
def scanEntry (long : Nat) (stale : Stale) (line : List UInt8) : Nat × Entry :=
  let e := Entry.unread stale
  match scanWord 40 line with
  | none => (0, e)
  | some (name, line) =>
    let e := { e with name := name }
    match scanChar line with
    | none => (1, e)
    | some (type, line) =>
      let e := { e with type := type }
      match scanOctal long line with
      | none => (2, e)
      | some (mode, line) =>
        let e := { e with mode := mode }
        match scanWord 40 line with
        | none => (3, e)
        | some (user, line) =>
          let e := { e with user := user }
          match scanWord 40 line with
          | none => (4, e)
          | some (group, line) =>
            let e := { e with group := group }
            match scanDecimal long line with
            | none => (5, e)
            | some (major, line) =>
              let e := { e with major := major }
              match scanDecimal long line with
              | none => (6, e)
              | some (minor, line) =>
                let e := { e with minor := minor }
                match scanDecimal long line with
                | none => (7, e)
                | some (start, line) =>
                  let e := { e with start := start }
                  match scanDecimal long line with
                  | none => (8, e)
                  | some (increment, line) =>
                    let e := { e with increment := increment }
                    match scanDecimal long line with
                    | none => (9, e)
                    | some (count, _) => (10, { e with count := count })

/-- What the table's loop takes a line for. -/
inductive Line where
  /-- an empty line, a comment or one that starts with a blank -/
  | ignored
  /-- "line %d invalid" -/
  | invalid
  | entry (e : Entry)
  deriving DecidableEq, Repr

/-- A line without a NUL, up to its end. -/
def tableLine (long : Nat) (stale : Stale) (line : List UInt8) : Line :=
  let (conversions, e) := scanEntry long stale line
  if conversions < 2 ∨ e.major ||| e.minor ||| e.start ||| e.count ||| e.increment > 0xfffff then
    match line with
    | [] => .ignored
    | c :: _ => if c = chHash ∨ isspace c = true then .ignored else .invalid
  else if e.name.head? = some chHash then .ignored
  else .entry e

/-! ## Owners -/

/-- The accounts the C library knows, and those the process runs under. -/
structure Accounts where
  getpwnam : List UInt8 → Option UInt32
  getgrnam : List UInt8 → Option UInt32
  getuid : UInt32
  getgid : UInt32

/-- `get_ug_id`, `none` where `my_getxxnam` ends the program over an unknown name. -/
def getUgId (long : Nat) (s : List UInt8) (getxxnam : List UInt8 → Option UInt32) :
    Option UInt32 :=
  let (r, p) := strtoul long s
  if p ≠ [] ∨ s = p then getxxnam s else some (.ofNat r)

structure Owner where
  uid : UInt32
  gid : UInt32
  deriving DecidableEq, Repr

/-- The owner of an entry's files. -/
def owner (long : Nat) (accounts : Accounts) (e : Entry) : Option Owner := do
  let gid ← if e.group ≠ [] then getUgId long e.group accounts.getgrnam else some accounts.getgid
  let uid ← if e.user ≠ [] then getUgId long e.user accounts.getpwnam else some accounts.getuid
  some ⟨uid, gid⟩

/-! ## Paths -/

/-- `last_char_is`, of a string there is: whether the last character is `c`. -/
def lastCharIs (s : List UInt8) (c : UInt8) : Bool := s.getLast? == some c

def concatPathFile (path filename : List UInt8) : List UInt8 :=
  path ++ (if lastCharIs path chSlash then [] else [chSlash]) ++
    filename.dropWhile (· == chSlash)

/-! ## Nodes -/

abbrev S_IFIFO : UInt32 := 0o010000
abbrev S_IFCHR : UInt32 := 0o020000
abbrev S_IFDIR : UInt32 := 0o040000
abbrev S_IFBLK : UInt32 := 0o060000

/-- The type bits of a node, `none` for an "Unsupported file type". -/
def nodeType (type : UInt8) : Option UInt32 :=
  if type = 0x70 then some S_IFIFO
  else if type = 0x63 then some S_IFCHR
  else if type = 0x62 then some S_IFBLK
  else none

/-- What `%d` prints for an `unsigned int`. -/
def printInt (w : UInt32) : List UInt8 :=
  if w.toNat < 2147483648 then decimal w.toNat else chMinus :: decimal (4294967296 - w.toNat)

/-- A call of `mknod`, and the owner the node is given. -/
structure Mknod where
  path : List UInt8
  mode : UInt32
  rdev : UInt64
  owner : Owner
  deriving DecidableEq, Repr

/-- Node `i` of a range. -/
def node (e : Entry) (fullName : List UInt8) (mode : UInt32) (owner : Owner) (i : Nat) :
    Mknod where
  path := fullName ++ printInt (e.start + .ofNat i)
  mode := mode
  rdev := makedev e.major (e.minor + .ofNat i * e.increment)
  owner := owner

/-- The nodes of an entry of the types `p`, `c` and `b`. -/
def nodes (e : Entry) (fullName : List UInt8) (mode : UInt32) (owner : Owner) : List Mknod :=
  if e.count > 0 then (List.range e.count.toNat).map (node e fullName mode owner)
  else [⟨fullName, mode, makedev e.major e.minor, owner⟩]

/-- The nodes of an entry, `none` where it is of another type or its owner is unknown. -/
def entryNodes (long : Nat) (accounts : Accounts) (rootdir : List UInt8) (e : Entry) :
    Option (List Mknod) := do
  let owner ← owner long accounts e
  let type ← nodeType e.type
  some (nodes e (concatPathFile rootdir e.name) (e.mode ||| type) owner)

/-! ## What a range stands for -/

/-- The range names its nodes by the numbers from `start` on and gives them the minors from
`minor` on in steps of `increment`, none of which is cut off; with a step no two of them are one
device. -/
structure Expands (rootdir : List UInt8) (e : Entry) (ms : List Mknod) : Prop where
  length : ms.length = e.count.toNat
  path : ∀ (i : Nat) (h : i < ms.length),
    ms[i].path = concatPathFile rootdir e.name ++ decimal (e.start.toNat + i)
  major : ∀ (i : Nat) (h : i < ms.length), devMajor ms[i].rdev = e.major
  minor : ∀ (i : Nat) (h : i < ms.length),
    (devMinor ms[i].rdev).toNat = e.minor.toNat + i * e.increment.toNat
  bound : ∀ (i : Nat) (h : i < ms.length), (devMinor ms[i].rdev).toNat < 2 ^ 20
  distinct : 0 < e.increment → (ms.map (·.rdev)).Nodup

section Range
variable {long : Nat} {stale : Stale} {line rootdir : List UInt8} {e : Entry}

/-- The check of a line bounds each of its numbers. -/
theorem entry_bounds (h : tableLine long stale line = .entry e) : e.major.toNat < 2 ^ 20 ∧
    e.minor.toNat < 2 ^ 20 ∧ e.start.toNat < 2 ^ 20 ∧ e.count.toNat < 2 ^ 20 ∧
      e.increment.toNat < 2 ^ 20 := by
  unfold tableLine at h
  generalize scanEntry long stale line = r at h
  obtain ⟨conversions, e'⟩ := r
  dsimp only at h
  split at h
  · split at h
    · cases h
    · split at h
      · cases h
      · cases h
  · next hn =>
    split at h
    · cases h
    · cases h
      -- one comparison of the five numbers together, each of which is no larger than their "or"
      have hor := UInt32.le_iff_toNat_le.mp (UInt32.not_lt.mp (not_or.mp hn).2)
      simp only [UInt32.toNat_or] at hor
      have hmax : (0xfffff : UInt32).toNat = 2 ^ 20 - 1 := rfl
      rw [hmax] at hor
      have h₁ := le_trans Nat.left_le_or hor
      have h₂ := le_trans Nat.left_le_or h₁
      have h₃ := le_trans Nat.left_le_or h₂
      refine ⟨?_, ?_, ?_, ?_, ?_⟩
      · have := le_trans Nat.left_le_or h₃
        omega
      · have := le_trans Nat.right_le_or h₃
        omega
      · have := le_trans Nat.right_le_or h₂
        omega
      · have := le_trans Nat.right_le_or h₁
        omega
      · have := le_trans Nat.right_le_or hor
        omega

/-- The number a node's name ends in does not wrap. -/
theorem node_path (h : tableLine long stale line = .entry e) {i : Nat} (hi : i < e.count.toNat)
    (fullName : List UInt8) (mode : UInt32) (owner : Owner) :
    (node e fullName mode owner i).path = fullName ++ decimal (e.start.toNat + i) := by
  obtain ⟨-, -, hstart, hcount, -⟩ := entry_bounds h
  have hof : (UInt32.ofNat i).toNat = i := by
    rw [UInt32.toNat_ofNat']
    omega
  have hadd : (e.start + .ofNat i).toNat = e.start.toNat + i := by
    rw [UInt32.toNat_add, hof]
    omega
  simp only [node, printInt, hadd]
  rw [if_pos (by omega)]

/-- The buffer `full_name_inc` holds the name of every node and its terminator. -/
theorem node_path_fits (h : tableLine long stale line = .entry e) {i : Nat}
    (hi : i < e.count.toNat) (fullName : List UInt8) (mode : UInt32) (owner : Owner) :
    (node e fullName mode owner i).path.length + 1 ≤ fullName.length + 8 := by
  obtain ⟨-, -, hstart, hcount, -⟩ := entry_bounds h
  rw [node_path h hi, List.length_append]
  have := decimal_length_le (n := e.start.toNat + i) (k := 7) (by omega) (by omega)
  omega

/-- A range that starts at the largest number and is as long as a range can be. -/
def lastName : Entry :=
  ⟨ascii "/dev/x", 0x63, 0o600, ascii "0", ascii "0", 1, 0, 1048575, 0, 1048575⟩

/-- The name of its last node, with its terminator, is as long as the buffer. -/
theorem node_path_fits_last :
    tableLine 32 ⟨[], []⟩ (ascii "/dev/x c 600 0 0 1 0 1048575 0 1048575") = .entry lastName ∧
    (node lastName (ascii "/dev/x") 0o020600 ⟨0, 0⟩ 1048574).path = ascii "/dev/x2097149" ∧
    (node lastName (ascii "/dev/x") 0o020600 ⟨0, 0⟩ 1048574).path.length + 1 ≤
      (ascii "/dev/x").length + 8 := by
  have h : tableLine 32 ⟨[], []⟩ (ascii "/dev/x c 600 0 0 1 0 1048575 0 1048575") =
      .entry lastName := by
    decide +kernel
  exact ⟨h, by decide +kernel, node_path_fits h (by decide) (ascii "/dev/x") 0o020600 ⟨0, 0⟩⟩

/-- The minor of a node, with what the 32 bits leave of it. -/
theorem node_minor (hi : i < 2 ^ 32) (e : Entry) (fullName : List UInt8) (mode : UInt32)
    (owner : Owner) : (devMinor (node e fullName mode owner i).rdev).toNat =
      (e.minor.toNat + i * e.increment.toNat) % 2 ^ 32 := by
  have hof : (UInt32.ofNat i).toNat = i := by
    rw [UInt32.toNat_ofNat']
    omega
  simp only [node, devMinor_makedev, UInt32.toNat_add, UInt32.toNat_mul, hof]
  omega

/-- The nodes of a range, counted. -/
theorem entryNodes_range {accounts : Accounts} {ms : List Mknod} (hcount : 0 < e.count)
    (hms : entryNodes long accounts rootdir e = some ms) : ∃ mode owner,
      ms = (List.range e.count.toNat).map
        (node e (concatPathFile rootdir e.name) mode owner) := by
  simp only [entryNodes, Option.bind_eq_bind, Option.bind_eq_some_iff] at hms
  obtain ⟨owner, -, type, -, hms⟩ := hms
  cases hms
  refine ⟨e.mode ||| type, owner, ?_⟩
  rw [nodes, if_pos hcount]

/-- A range expands as it should exactly where its last minor has 20 bits. Every other number of
it is small enough by the check of the line. -/
theorem expands_iff {accounts : Accounts} {ms : List Mknod}
    (h : tableLine long stale line = .entry e) (hcount : 0 < e.count)
    (hms : entryNodes long accounts rootdir e = some ms) :
    Expands rootdir e ms ↔
      e.minor.toNat + (e.count.toNat - 1) * e.increment.toNat < 2 ^ 20 := by
  obtain ⟨-, hminor, -, hcount', hinc⟩ := entry_bounds h
  have hpos : 0 < e.count.toNat := UInt32.lt_iff_toNat_lt.mp hcount
  refine ⟨fun hex => ?_, fun hlast => ?_⟩
  · have hi : e.count.toNat - 1 < ms.length := by
      rw [hex.length]
      omega
    rw [← hex.minor _ hi]
    exact hex.bound _ hi
  · obtain ⟨mode, owner, rfl⟩ := entryNodes_range hcount hms
    -- the last minor is the largest
    have hlt : ∀ i < e.count.toNat, e.minor.toNat + i * e.increment.toNat < 2 ^ 20 := by
      intro i hi
      have := Nat.mul_le_mul_right e.increment.toNat (show i ≤ e.count.toNat - 1 by omega)
      omega
    have hval : ∀ i < e.count.toNat,
        (devMinor (node e (concatPathFile rootdir e.name) mode owner i).rdev).toNat =
          e.minor.toNat + i * e.increment.toNat := by
      intro i hi
      rw [node_minor (by omega)]
      exact Nat.mod_eq_of_lt (by have := hlt i hi; omega)
    have hlen : ((List.range e.count.toNat).map
        (node e (concatPathFile rootdir e.name) mode owner)).length = e.count.toNat := by
      rw [List.length_map, List.length_range]
    refine ⟨hlen, ?_, ?_, ?_, ?_, ?_⟩
    · intro i hi
      rw [List.getElem_map, List.getElem_range]
      exact node_path h (hlen ▸ hi) _ _ _
    · intro i hi
      rw [List.getElem_map, List.getElem_range]
      exact devMajor_makedev _ _
    · intro i hi
      rw [List.getElem_map, List.getElem_range]
      exact hval i (hlen ▸ hi)
    · intro i hi
      rw [List.getElem_map, List.getElem_range, hval i (hlen ▸ hi)]
      exact hlt i (hlen ▸ hi)
    · intro hstep
      rw [List.map_map]
      apply List.Nodup.map_on _ List.nodup_range
      intro i hi j hj hij
      have hminors := congrArg (fun dev => (devMinor dev).toNat) hij
      simp only [Function.comp_apply, hval i (List.mem_range.mp hi),
        hval j (List.mem_range.mp hj)] at hminors
      exact Nat.eq_of_mul_eq_mul_right (UInt32.lt_iff_toNat_lt.mp hstep)
        (Nat.add_left_cancel hminors)

end Range

/-- A process whose accounts need no names. -/
def numericAccounts : Accounts := ⟨fun _ => none, fun _ => none, 0, 0⟩

/-- The fifteen partitions of the usage text. -/
def hda : Entry :=
  ⟨ascii "/dev/hda", 0x62, 0o640, ascii "0", ascii "0", 3, 1, 1, 1, 15⟩

theorem expands_iff_hda : tableLine 32 ⟨[], []⟩ (ascii "/dev/hda b 640 0 0 3 1 1 1 15") =
      .entry hda ∧
    Expands (ascii "target") hda (nodes hda (ascii "target/dev/hda") 0o060640 ⟨0, 0⟩) := by
  have h : tableLine 32 ⟨[], []⟩ (ascii "/dev/hda b 640 0 0 3 1 1 1 15") = .entry hda := by
    decide +kernel
  have hms : entryNodes 32 numericAccounts (ascii "target") hda =
      some (nodes hda (ascii "target/dev/hda") 0o060640 ⟨0, 0⟩) := by
    decide +kernel
  exact ⟨h, (expands_iff h (by decide) hms).mpr (by decide)⟩

/-- A range whose second minor is 2^20. -/
def lastMinor : Entry :=
  ⟨ascii "/dev/x", 0x63, 0o600, ascii "0", ascii "0", 1, 1048575, 0, 1, 2⟩

theorem expands_apart : tableLine 32 ⟨[], []⟩ (ascii "/dev/x c 600 0 0 1 1048575 0 1 2") =
      .entry lastMinor ∧ lastMinor.type = 0x63 ∧ 0 < lastMinor.count ∧
    ∃ ms, entryNodes 32 numericAccounts (ascii "target") lastMinor = some ms ∧
      ¬ Expands (ascii "target") lastMinor ms := by
  refine ⟨by decide +kernel, by decide, by decide,
    nodes lastMinor (ascii "target/dev/x") 0o020600 ⟨0, 0⟩, by decide +kernel, ?_⟩
  intro h
  exact absurd (h.bound 1 (by decide)) (by decide +kernel)

end Lichee.Makedevs

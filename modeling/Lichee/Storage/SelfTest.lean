import Lichee.Base.Memory
import Lichee.Base.Stdio
import Lichee.Base.Words
import Mathlib.Tactic.Ring

/- The self-tests of the storage (nandrw.c and emmcrw.c). Both write a pattern to a file, as many
   megabytes as their second argument says, and read it back. The patterns end in 0xff wherever a
   read may end, so a read that comes short is noticed though its length is not looked at. The
   result of `fseek` is not looked at either, and nandrw counts a megabyte as 4096 bytes:
   `verified_iff` says when a test that returns 0 has gone over the range it was given. -/
namespace Lichee.Storage
open Base

/-! ## The file -/

/-- The calls of the C library, over a state of the memory and the file of type `σ`. A position
counts the bytes from the start of the file. -/
structure Medium (σ : Type) where
  /-- whether there is memory for a block -/
  malloc : Nat → σ → Bool × σ
  fopen : List UInt8 → σ → Bool × σ
  /-- how many of the bytes are written at a position -/
  fwrite : Nat → List UInt8 → σ → Nat × σ
  fflush : σ → Bool × σ
  fseek : σ → σ
  /-- whether the one `fseek` of a test rewinds the file -/
  seeks : Bool
  /-- the bytes that are read at a position -/
  fread : Nat → Nat → σ → List UInt8 × σ
  fread_le : ∀ pos n w, (fread pos n w).1.length ≤ n

/-- A test under way: the position in the file, and every byte that was written and read, each
with its position. -/
structure Run (σ : Type) where
  world : σ
  pos : Nat
  written : List (UInt8 × Nat)
  read : List (UInt8 × Nat)

/-- What ends a test before its end. -/
inductive Stop (σ : Type) where
  /-- a write through NULL, the shift of a negative number, or a file name without its NUL -/
  | undefined
  /-- `retval = -1; goto out` -/
  | out (r : Run σ)

variable {σ : Type}

def Run.start (w : σ) : Run σ := ⟨w, 0, [], []⟩

/-- `data` is written at the position. -/
def Run.wrote (r : Run σ) (data : List UInt8) (w : σ) : Run σ :=
  ⟨w, r.pos + data.length, r.written ++ data.zipIdx r.pos, r.read⟩

/-- `data` is read at the position. -/
def Run.got (r : Run σ) (data : List UInt8) (w : σ) : Run σ :=
  ⟨w, r.pos + data.length, r.written, r.read ++ data.zipIdx r.pos⟩

/-! ## The test -/

section Test
variable (m : Medium σ)

/-- The inner loop that fills `wbuffer`. -/
def ramp : List UInt8 := (List.range 256).map .ofNat

/-- The outer one, of so many turns. -/
def fill : Nat → List UInt8
  | 0 => []
  | k + 1 => ramp ++ fill k

/-- `fwrite(wbuffer, 1, n, fp)` -/
def writeBlock (wbuffer : List UInt8) (n : Nat) (r : Run σ) : Except (Stop σ) (Run σ) :=
  let (nwritten, w) := m.fwrite r.pos (wbuffer.take n) r.world
  let r := r.wrote ((wbuffer.take n).take nwritten) w
  if nwritten < n then .error (.out r) else .ok r

/-- `fread(rbuffer, 1, n, fp)` into a buffer of zeros, compared with `wbuffer`. -/
def readBlock (wbuffer : List UInt8) (n : Nat) (r : Run σ) : Except (Stop σ) (Run σ) :=
  let (data, w) := m.fread r.pos n r.world
  let rbuffer := padTo wbuffer.length data
  let r := r.got data w
  if rbuffer.take n ≠ wbuffer.take n then .error (.out r) else .ok r

/-- A loop of `n` turns. -/
def turns (turn : Run σ → Except (Stop σ) (Run σ)) : Nat → Run σ → Except (Stop σ) (Run σ)
  | 0, r => .ok r
  | n + 1, r => turn r >>= turns turn n

/-- `rest_len` -/
def restLen (len offset : Nat) (size : Int) : Except (Stop σ) Nat :=
  let rest := size.tmod len
  if rest < 0 then .error .undefined else .ok (rest.toNat <<< offset)

/-- All of `size` in blocks, and what is left. -/
def pass (block : Nat → Run σ → Except (Stop σ) (Run σ)) (len offset : Nat) (size : Int)
    (r : Run σ) : Except (Stop σ) (Run σ) := do
  let r ← turns (block (len <<< offset)) (size.tdiv len).toNat r
  let rest ← restLen len offset size
  if rest ≠ 0 then block rest r else .ok r

/-- A call that may fail, and what is done where it does. -/
def call (f : σ → Bool × σ) (fails : Run σ → Stop σ) (r : Run σ) : Except (Stop σ) (Run σ) :=
  let (done, w) := f r.world
  let r := { r with world := w }
  if done then .ok r else .error (fails r)

/-- `fopen(filename, "wb+")`, of the argument that `strncpy` has put into `filename`. -/
def openFile (file : List UInt8) (r : Run σ) : Except (Stop σ) (Run σ) :=
  if 256 ≤ file.length then .error .undefined else call (m.fopen file) .out r

/-- `fseek(fp, 0, SEEK_SET)`, whatever it returns. -/
def rewind (r : Run σ) : Run σ :=
  { r with world := m.fseek r.world, pos := if m.seeks then 0 else r.pos }

/-- The test, with blocks of `len << offset` bytes. -/
def runTest (len offset : Nat) (file : List UInt8) (size : Int) (w : σ) :
    Except (Stop σ) (Run σ) := do
  let r ← call (m.malloc (len <<< offset)) (fun _ => .undefined) (.start w)
  let wbuffer := fill ((len <<< offset) / 256)
  let r ← call (m.malloc (len <<< offset)) .out r
  let r ← openFile m file r
  let r ← pass (writeBlock m wbuffer) len offset size r
  let r ← call m.fflush .out r
  pass (readBlock m wbuffer) len offset size (rewind m r)

/-- `main`, of the arguments behind the program's name: what it returns, `none` where that is
undefined. -/
def storageTest (len offset : Nat) (args : List (List UInt8)) (w : σ) : Option (Int × Run σ) :=
  match args with
  | [file, size] =>
    match runTest m len offset file (atoi size) w with
    | .ok r => some (0, r)
    | .error (.out r) => some (-1, r)
    | .error .undefined => none
  | _ => some (-1, .start w)

/-- nandrw.c -/
def nandrw (args : List (List UInt8)) (w : σ) : Option (Int × Run σ) := storageTest m 4 12 args w

/-- emmcrw.c -/
def emmcrw (args : List (List UInt8)) (w : σ) : Option (Int × Run σ) := storageTest m 4 20 args w

end Test

/-! ## What a test is to do -/

inductive Program where
  | nandrw
  | emmcrw
  deriving DecidableEq, Repr

def Program.main (p : Program) (m : Medium σ) : List (List UInt8) → σ → Option (Int × Run σ) :=
  match p with
  | .nandrw => Storage.nandrw m
  | .emmcrw => Storage.emmcrw m

/-- `size` megabytes were written from the start of the file on, and the same bytes were read in
the same places. -/
def Verified (size : Nat) (r : Run σ) : Prop :=
  ∃ data : List UInt8, data.length = size * 2 ^ 20 ∧ r.written = data.zipIdx ∧
    r.read = data.zipIdx

/-! ## The pattern -/

theorem ramp_length : ramp.length = 256 := by
  rw [ramp, List.length_map, List.length_range]

theorem fill_length (k : Nat) : (fill k).length = 256 * k := by
  induction k with
  | zero => rfl
  | succ k ih =>
    rw [fill, List.length_append, ramp_length, ih]
    omega

/-- Every 256 bytes of the pattern end in 0xff. -/
theorem fill_last {k t : Nat} (ht : 0 < t) (h : t ≤ k) : byteAt (fill k) (256 * t - 1) = 0xff := by
  induction k generalizing t with
  | zero => omega
  | succ k ih =>
    rw [byteAt, fill, List.getD_eq_getElem?_getD]
    by_cases h1 : t = 1
    · subst h1
      rw [List.getElem?_append_left (by rw [ramp_length]; omega)]
      decide
    · have hback : 256 * t - 1 - 256 = 256 * (t - 1) - 1 := by omega
      rw [List.getElem?_append_right (by rw [ramp_length]; omega), ramp_length, hback,
        ← List.getD_eq_getElem?_getD]
      exact ih (by omega) (by omega)

/-! ## Blocks -/

section Blocks
variable {m : Medium σ} {wbuffer : List UInt8} {n : Nat} {r r' : Run σ}

theorem writeBlock_ok (h : writeBlock m wbuffer n r = .ok r') (hn : n ≤ wbuffer.length) :
    ∃ w, r' = r.wrote (wbuffer.take n) w := by
  have hlen : (wbuffer.take n).length = n := List.length_take_of_le hn
  simp only [writeBlock] at h
  split at h
  · cases h
  · next hfull =>
    rw [List.take_of_length_le (by omega)] at h
    exact ⟨_, (Except.ok.inj h).symm⟩

/-- A read that comes short leaves a zero where the pattern has none. -/
theorem short_ne {data : List UInt8} (hshort : data.length < n)
    (hend : byteAt wbuffer (n - 1) ≠ 0) :
    (padTo wbuffer.length data).take n ≠ wbuffer.take n := by
  intro h
  have hlast : byteAt (padTo wbuffer.length data) (n - 1) = byteAt wbuffer (n - 1) := by
    have := congrArg (·[n - 1]?) h
    simp only [List.getElem?_take, if_pos (show n - 1 < n by omega)] at this
    rw [byteAt, byteAt, List.getD_eq_getElem?_getD, List.getD_eq_getElem?_getD, this]
  apply hend
  rw [← hlast, byteAt, List.getD_eq_getElem?_getD, padTo,
    List.getElem?_append_right (by omega), zeros, List.getElem?_replicate]
  split <;> rfl

theorem readBlock_ok (h : readBlock m wbuffer n r = .ok r')
    (hend : byteAt wbuffer (n - 1) ≠ 0) : ∃ w, r' = r.got (wbuffer.take n) w := by
  simp only [readBlock] at h
  split at h
  · cases h
  · next hsame =>
    rw [not_ne_iff] at hsame
    have hlen : (m.fread r.pos n r.world).1.length = n := by
      by_contra hne
      exact short_ne (Nat.lt_of_le_of_ne (m.fread_le ..) hne) hend hsame
    have hdata : (m.fread r.pos n r.world).1 = wbuffer.take n := by
      rw [← hsame, padTo, List.take_left' hlen]
    rw [hdata] at h
    exact ⟨_, (Except.ok.inj h).symm⟩

end Blocks

/-! ## Passes -/

/-- All of the pattern that a pass over `size` megabytes goes through. -/
def testData (wbuffer : List UInt8) (len offset size : Nat) : List UInt8 :=
  (List.replicate (size / len) (wbuffer.take (len <<< offset))).flatten ++
    wbuffer.take ((size % len) <<< offset)

/-- What moves a test on by some data: one piece after the other is both at once. -/
structure Advance (act : Run σ → List UInt8 → σ → Run σ) : Prop where
  append : ∀ r a w b w', act (act r a w) b w' = act r (a ++ b) w'
  nil : ∀ r, act r [] r.world = r

theorem wrote_advance : Advance (σ := σ) Run.wrote := by
  refine ⟨?_, ?_⟩
  · intro r a w b w'
    simp only [Run.wrote, List.append_assoc, List.zipIdx_append, List.length_append, Nat.add_assoc]
  · intro r
    simp only [Run.wrote, List.length_nil, Nat.add_zero, List.zipIdx_nil, List.append_nil]

theorem got_advance : Advance (σ := σ) Run.got := by
  refine ⟨?_, ?_⟩
  · intro r a w b w'
    simp only [Run.got, List.append_assoc, List.zipIdx_append, List.length_append, Nat.add_assoc]
  · intro r
    simp only [Run.got, List.length_nil, Nat.add_zero, List.zipIdx_nil, List.append_nil]

section Passes
variable {act : Run σ → List UInt8 → σ → Run σ} {turn : Run σ → Except (Stop σ) (Run σ)}
  {block : Nat → Run σ → Except (Stop σ) (Run σ)} {data wbuffer : List UInt8}
  {len offset size n : Nat} {r r' : Run σ}

theorem turns_ok (hact : Advance act)
    (hturn : ∀ r r', turn r = .ok r' → ∃ w, r' = act r data w) (h : turns turn n r = .ok r') :
    ∃ w, r' = act r (List.replicate n data).flatten w := by
  induction n generalizing r with
  | zero =>
    cases h
    exact ⟨r'.world, (hact.nil r').symm⟩
  | succ n ih =>
    obtain ⟨r₁, h₁, h⟩ := bind_eq_ok.mp h
    obtain ⟨w₁, rfl⟩ := hturn r r₁ h₁
    obtain ⟨w, rfl⟩ := ih h
    rw [List.replicate_succ, List.flatten_cons]
    exact ⟨w, hact.append ..⟩

theorem restLen_nat (len offset size : Nat) :
    restLen (σ := σ) len offset size = .ok ((size % len) <<< offset) := by
  rw [restLen, ← Int.ofNat_tmod]
  exact if_neg (by omega)

/-- A pass that gets to its end has gone over all the data. -/
theorem pass_ok (hact : Advance act) (hlen : 0 < len) (hblock : ∀ x r r', 0 < x → x ≤ len →
      block (x <<< offset) r = .ok r' → ∃ w, r' = act r (wbuffer.take (x <<< offset)) w)
    (h : pass block len offset size r = .ok r') :
    ∃ w, r' = act r (testData wbuffer len offset size) w := by
  rw [pass, ← Int.ofNat_tdiv, Int.toNat_natCast] at h
  obtain ⟨r₁, h₁, h⟩ := bind_eq_ok.mp h
  obtain ⟨w₁, rfl⟩ := turns_ok hact (fun r r' => hblock len r r' hlen le_rfl) h₁
  rw [restLen_nat, ok_bind] at h
  by_cases hrest : (size % len) <<< offset ≠ 0
  · have hpos : 0 < size % len := by
      by_contra h0
      apply hrest
      rw [Nat.eq_zero_of_not_pos h0, Nat.zero_shiftLeft]
    rw [if_pos hrest] at h
    obtain ⟨w, rfl⟩ := hblock _ _ _ hpos (Nat.mod_lt size hlen).le h
    exact ⟨w, hact.append ..⟩
  · rw [if_neg hrest] at h
    rw [not_ne_iff] at hrest
    cases h
    refine ⟨w₁, ?_⟩
    rw [testData, hrest, List.take_zero, List.append_nil]

end Passes

/-! ## Runs -/

section Runs
variable {m : Medium σ} {len offset size : Nat}

/-- `wbuffer`, filled. -/
abbrev pattern (len offset : Nat) : List UInt8 := fill ((len <<< offset) / 256)

theorem shift_blocks (hoffset : 8 ≤ offset) (x : Nat) :
    x <<< offset = 256 * (x * 2 ^ (offset - 8)) := by
  have hpow : 2 ^ offset = 2 ^ 8 * 2 ^ (offset - 8) := by
    rw [← Nat.pow_add, show 8 + (offset - 8) = offset by omega]
  rw [Nat.shiftLeft_eq, hpow]
  ring

theorem pattern_length (hoffset : 8 ≤ offset) (len : Nat) :
    (pattern len offset).length = len <<< offset := by
  rw [pattern, fill_length, shift_blocks hoffset]
  omega

theorem pattern_room (hoffset : 8 ≤ offset) {x : Nat} (hle : x ≤ len) :
    x <<< offset ≤ (pattern len offset).length := by
  rw [pattern_length hoffset, Nat.shiftLeft_eq, Nat.shiftLeft_eq]
  exact Nat.mul_le_mul_right _ hle

theorem pattern_last (hoffset : 8 ≤ offset) {x : Nat} (hx : 0 < x) (hle : x ≤ len) :
    byteAt (pattern len offset) (x <<< offset - 1) ≠ 0 := by
  have hpos : 0 < x * 2 ^ (offset - 8) := Nat.mul_pos hx (Nat.two_pow_pos _)
  have hblocks : x * 2 ^ (offset - 8) ≤ len <<< offset / 256 := by
    rw [shift_blocks hoffset, Nat.mul_div_cancel_left _ (by decide)]
    exact Nat.mul_le_mul_right _ hle
  rw [shift_blocks hoffset, pattern, fill_last hpos hblocks]
  decide

theorem testData_length (hlen : 0 < len) (hoffset : 8 ≤ offset) (size : Nat) :
    (testData (pattern len offset) len offset size).length = size * 2 ^ offset := by
  have hrest := pattern_room hoffset (Nat.mod_lt size hlen).le
  rw [testData, List.length_append, List.length_take_of_le hrest,
    List.take_of_length_le (pattern_length hoffset len).le]
  simp only [List.length_flatten, List.map_replicate, List.sum_replicate_nat,
    pattern_length hoffset]
  calc size / len * len <<< offset + (size % len) <<< offset
      = (size / len * len + size % len) * 2 ^ offset := by
        rw [Nat.shiftLeft_eq, Nat.shiftLeft_eq]
        ring
    _ = size * 2 ^ offset := by rw [Nat.div_add_mod']

theorem call_ok {f : σ → Bool × σ} {fails : Run σ → Stop σ} {r r' : Run σ}
    (h : call f fails r = .ok r') : ∃ w, r' = { r with world := w } := by
  simp only [call] at h
  split at h
  · exact ⟨_, (Except.ok.inj h).symm⟩
  · cases h

theorem openFile_ok {file : List UInt8} {r r' : Run σ} (h : openFile m file r = .ok r') :
    ∃ w, r' = { r with world := w } := by
  rw [openFile] at h
  split at h
  · cases h
  · exact call_ok h

theorem writePass_ok {r r' : Run σ} (hlen : 0 < len) (hoffset : 8 ≤ offset)
    (h : pass (writeBlock m (pattern len offset)) len offset size r = .ok r') :
    ∃ w, r' = r.wrote (testData (pattern len offset) len offset size) w :=
  pass_ok wrote_advance hlen
    (fun _ _ _ _ hle hblock => writeBlock_ok hblock (pattern_room hoffset hle)) h

theorem readPass_ok {r r' : Run σ} (hlen : 0 < len) (hoffset : 8 ≤ offset)
    (h : pass (readBlock m (pattern len offset)) len offset size r = .ok r') :
    ∃ w, r' = r.got (testData (pattern len offset) len offset size) w :=
  pass_ok got_advance hlen
    (fun _ _ _ hpos hle hblock => readBlock_ok hblock (pattern_last hoffset hpos hle)) h

/-- What a test that gets to its end has written, and what it has read. -/
theorem runTest_ok {file : List UInt8} {w : σ} {r : Run σ} (hlen : 0 < len)
    (hoffset : 8 ≤ offset) (h : runTest m len offset file size w = .ok r) :
    r.written = (testData (pattern len offset) len offset size).zipIdx ∧
    r.read = (testData (pattern len offset) len offset size).zipIdx
      (if m.seeks then 0 else size * 2 ^ offset) := by
  obtain ⟨r₁, h₁, h⟩ := bind_eq_ok.mp h
  obtain ⟨w₁, rfl⟩ := call_ok h₁
  obtain ⟨r₂, h₂, h⟩ := bind_eq_ok.mp h
  obtain ⟨w₂, rfl⟩ := call_ok h₂
  obtain ⟨r₃, h₃, h⟩ := bind_eq_ok.mp h
  obtain ⟨w₃, rfl⟩ := openFile_ok h₃
  obtain ⟨r₄, h₄, h⟩ := bind_eq_ok.mp h
  obtain ⟨w₄, rfl⟩ := writePass_ok hlen hoffset h₄
  obtain ⟨r₅, h₅, h⟩ := bind_eq_ok.mp h
  obtain ⟨w₅, rfl⟩ := call_ok h₅
  obtain ⟨w₆, rfl⟩ := readPass_ok hlen hoffset h
  simp only [rewind, Run.got, Run.wrote, Run.start, List.nil_append, Nat.zero_add,
    testData_length hlen hoffset, and_self]

end Runs

/-! ## A medium that holds the pattern -/

/-- Every call succeeds, but for `fseek` where `seeks` does not say so, and every read finds the
first bytes of `wbuffer`. -/
def holding (wbuffer : List UInt8) (seeks : Bool) : Medium Unit where
  malloc _ w := (true, w)
  fopen _ w := (true, w)
  fwrite _ data w := (data.length, w)
  fflush w := (true, w)
  fseek w := w
  seeks := seeks
  fread _ n w := (wbuffer.take n, w)
  fread_le _ n _ := List.length_take_le n wbuffer

section Holding
variable {wbuffer : List UInt8} {len offset : Nat}

theorem turns_returns {turn : Run σ → Except (Stop σ) (Run σ)}
    (h : ∀ r, ∃ r', turn r = .ok r') (n : Nat) (r : Run σ) : ∃ r', turns turn n r = .ok r' := by
  induction n generalizing r with
  | zero => exact ⟨r, rfl⟩
  | succ n ih =>
    obtain ⟨r₁, h₁⟩ := h r
    obtain ⟨r', h'⟩ := ih r₁
    exact ⟨r', bind_eq_ok.mpr ⟨r₁, h₁, h'⟩⟩

theorem pass_returns {block : Nat → Run σ → Except (Stop σ) (Run σ)} (hlen : 0 < len)
    (h : ∀ x r, x ≤ len → ∃ r', block (x <<< offset) r = .ok r') (size : Nat) (r : Run σ) :
    ∃ r', pass block len offset size r = .ok r' := by
  rw [pass, ← Int.ofNat_tdiv, Int.toNat_natCast, restLen_nat]
  obtain ⟨r₁, h₁⟩ := turns_returns (fun r => h len r le_rfl) (size / len) r
  rw [h₁, ok_bind, ok_bind]
  split
  · exact h _ r₁ (Nat.mod_lt size hlen).le
  · exact ⟨r₁, rfl⟩

theorem holding_write {n : Nat} (hn : n ≤ wbuffer.length) (seeks : Bool) (r : Run Unit) :
    ∃ r', writeBlock (holding wbuffer seeks) wbuffer n r = .ok r' := by
  have hlen : (wbuffer.take n).length = n := List.length_take_of_le hn
  exact ⟨_, if_neg (by simp only [holding, hlen, lt_irrefl, not_false_iff])⟩

theorem holding_read {n : Nat} (hn : n ≤ wbuffer.length) (seeks : Bool) (r : Run Unit) :
    ∃ r', readBlock (holding wbuffer seeks) wbuffer n r = .ok r' := by
  have hlen : (wbuffer.take n).length = n := List.length_take_of_le hn
  have hsame : (padTo wbuffer.length (wbuffer.take n)).take n = wbuffer.take n := by
    rw [padTo, List.take_left' hlen]
  exact ⟨_, if_neg (not_not_intro hsame)⟩

theorem holding_returns (hlen : 0 < len) (hoffset : 8 ≤ offset) {file : List UInt8}
    (hfile : file.length < 256) (seeks : Bool) (size : Nat) :
    ∃ r, runTest (holding (pattern len offset) seeks) len offset file size () = .ok r := by
  have hopen : openFile (holding (pattern len offset) seeks) file (.start ()) =
      .ok (.start ()) := if_neg (Nat.not_le.mpr hfile)
  obtain ⟨r₁, h₁⟩ := pass_returns hlen
    (fun _ r hle => holding_write (pattern_room hoffset hle) seeks r) size (.start ())
  obtain ⟨r₂, h₂⟩ := pass_returns hlen
    (fun _ r hle => holding_read (pattern_room hoffset hle) seeks r) size
    (rewind (holding (pattern len offset) seeks) r₁)
  exact ⟨r₂, bind_eq_ok.mpr ⟨_, rfl, bind_eq_ok.mpr ⟨_, rfl, bind_eq_ok.mpr ⟨_, hopen,
    bind_eq_ok.mpr ⟨_, h₁, bind_eq_ok.mpr ⟨_, rfl, h₂⟩⟩⟩⟩⟩⟩

end Holding

/-! ## The programs -/

/-- A test returns 0 where it gets to its end. -/
theorem storageTest_zero {m : Medium σ} {len offset : Nat} {file text : List UInt8} {w : σ}
    {r : Run σ} : storageTest m len offset [file, text] w = some (0, r) ↔
      runTest m len offset file (atoi text) w = .ok r := by
  rw [storageTest]
  cases runTest m len offset file (atoi text) w with
  | ok r' => simp
  | error e => cases e <;> simp

theorem zipIdx_start {data : List UInt8} (hne : data ≠ []) {n : Nat}
    (h : data.zipIdx n = data.zipIdx) : n = 0 := by
  obtain ⟨c, data, rfl⟩ := List.exists_cons_of_ne_nil hne
  rw [List.zipIdx_cons, List.zipIdx_cons] at h
  exact (Prod.mk.inj (List.cons.inj h).1).2

/-- A test that gets to its end has gone over its range just where its blocks are counted in
megabytes and it has read where it wrote, or there was nothing to do. -/
theorem runTest_verified_iff {m : Medium σ} {len offset size : Nat} {file : List UInt8} {w : σ}
    {r : Run σ} (hlen : 0 < len) (hoffset : 8 ≤ offset)
    (h : runTest m len offset file size w = .ok r) :
    Verified size r ↔ size = 0 ∨ offset = 20 ∧ m.seeks = true := by
  have hdata := testData_length hlen hoffset size
  obtain ⟨hwritten, hread⟩ := runTest_ok hlen hoffset h
  refine ⟨?_, ?_⟩
  · intro ⟨data, hlength, hw, hre⟩
    by_cases hzero : size = 0
    · exact .inl hzero
    have hpos := Nat.pos_of_ne_zero hzero
    have hsame := hw.symm.trans hwritten
    have hoff : 20 = offset := by
      have hbytes := congrArg List.length hsame
      rw [List.length_zipIdx, List.length_zipIdx, hlength, hdata] at hbytes
      exact Nat.pow_right_injective le_rfl (Nat.eq_of_mul_eq_mul_left hpos hbytes)
    have hbytes : 0 < size * 2 ^ offset := Nat.mul_pos hpos (Nat.two_pow_pos _)
    have hstart := zipIdx_start (List.length_pos_iff.mp (hdata ▸ hbytes))
      ((hread.symm.trans hre).trans hsame)
    refine .inr ⟨hoff.symm, ?_⟩
    by_contra hseeks
    rw [if_neg hseeks] at hstart
    omega
  · intro h
    rcases h with rfl | ⟨rfl, hseeks⟩
    · rw [Nat.zero_mul] at hdata
      rw [List.length_eq_zero_iff.mp hdata] at hwritten hread
      exact ⟨[], (Nat.zero_mul _).symm, hwritten, hread⟩
    · rw [if_pos hseeks] at hread
      exact ⟨_, hdata, hwritten, hread⟩

theorem storageTest_verified_iff (len offset : Nat) (hlen : 0 < len) (hoffset : 8 ≤ offset)
    {text : List UInt8} (hsize : 0 ≤ atoi text) (seeks : Bool) :
    (∀ (σ : Type) (m : Medium σ), m.seeks = seeks → ∀ file w r,
      storageTest m len offset [file, text] w = some (0, r) → Verified (atoi text).toNat r) ↔
    atoi text = 0 ∨ offset = 20 ∧ seeks = true := by
  obtain ⟨size, hnat⟩ := Int.eq_ofNat_of_zero_le hsize
  simp only [storageTest_zero, hnat, Int.toNat_natCast, Int.natCast_eq_zero]
  refine ⟨?_, ?_⟩
  · intro h
    obtain ⟨r, hr⟩ := holding_returns hlen hoffset (show (ascii "f").length < 256 by decide)
      seeks size
    exact (runTest_verified_iff hlen hoffset hr).mp (h Unit _ rfl _ _ _ hr)
  · intro h σ m hseeks file w r hr
    rw [← hseeks] at h
    exact (runTest_verified_iff hlen hoffset hr).mpr h

/-- Whether `fseek` rewinds the file or not: every test that returns 0 has gone over all of its
range just where the range is empty, or where emmcrw tests a file that is rewound. -/
theorem verified_iff (p : Program) {text : List UInt8} (hsize : 0 ≤ atoi text) (seeks : Bool) :
    (∀ (σ : Type) (m : Medium σ), m.seeks = seeks → ∀ file w r,
      p.main m [file, text] w = some (0, r) → Verified (atoi text).toNat r) ↔
    atoi text = 0 ∨ p = .emmcrw ∧ seeks = true := by
  cases p with
  | nandrw =>
    refine (storageTest_verified_iff 4 12 (by decide) (by decide) hsize seeks).trans ?_
    simp
  | emmcrw =>
    refine (storageTest_verified_iff 4 20 (by decide) (by decide) hsize seeks).trans ?_
    simp

/-- One megabyte of a file that can be rewound, tested by emmcrw. -/
theorem verified_iff_emmcrw : ∃ r,
    emmcrw (holding (pattern 4 20) true) [ascii "f", ascii "1"] () = some (0, r) ∧
      Verified 1 r := by
  obtain ⟨r, hr⟩ := holding_returns (show 0 < 4 by decide) (show 8 ≤ 20 by decide)
    (show (ascii "f").length < 256 by decide) true 1
  have hzero : emmcrw (holding (pattern 4 20) true) [ascii "f", ascii "1"] () = some (0, r) :=
    storageTest_zero.mpr hr
  have hsize : 0 ≤ atoi (ascii "1") := by decide
  exact ⟨r, hzero, (verified_iff .emmcrw hsize true).mpr (.inr ⟨rfl, rfl⟩) Unit _
    rfl _ _ r hzero⟩

/-- The same tested by nandrw. -/
theorem verified_nandrw : ∃ r,
    nandrw (holding (pattern 4 12) true) [ascii "f", ascii "1"] () = some (0, r) ∧
      r.written.length = 4096 ∧ ¬ Verified 1 r := by
  obtain ⟨r, hr⟩ := holding_returns (show 0 < 4 by decide) (show 8 ≤ 12 by decide)
    (show (ascii "f").length < 256 by decide) true 1
  obtain ⟨hwritten, -⟩ := runTest_ok (by decide) (by decide) hr
  have hlength : r.written.length = 4096 := by
    rw [hwritten, List.length_zipIdx, testData_length (by decide) (by decide)]
    rfl
  refine ⟨r, storageTest_zero.mpr hr, hlength, ?_⟩
  intro ⟨data, hdata, hw, _⟩
  rw [hw, List.length_zipIdx, hdata] at hlength
  omega

end Lichee.Storage

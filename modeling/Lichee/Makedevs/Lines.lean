import Lichee.Base.Memory
import Mathlib.Data.List.Forall2

/- The line reader of makedevs (`private_get_line_from_file` of makedevs.c). It puts the bytes of a
   line into a buffer that it makes 80 bytes longer whenever the next byte would leave no room for
   the terminator, and returns the buffer without the newline. Its sizes are `int`s and nothing
   compares them with the largest one: the calls return the lines of a stream just where none of
   them, its newline included, has 2147483600 bytes or more (`lines_returned_iff`). -/
namespace Lichee.Makedevs
open Base

/-! ## The function -/

abbrev GROWBY : Int := 80

abbrev INT_MAX : Int := 2147483647

/-- A stream: the bytes that are left, whether reading fails behind them, and its error flag. -/
structure Stream where
  bytes : List UInt8
  fails : Bool
  ferror : Bool
  deriving DecidableEq, Repr

/-- The variables of the function; `linebuf` is `none` where it is NULL. -/
structure LineBuf where
  idx : Int
  linebuf : Option (List UInt8)
  linebufsz : Int
  deriving DecidableEq, Repr

inductive LineFault where
  /-- an access outside the buffer -/
  | outside (fault : Fault)
  /-- `linebufsz` would pass the largest `int` -/
  | overflow
  deriving DecidableEq, Repr

/-- How the loop is left. -/
inductive LoopEnd where
  | eof
  | nul
  | newline
  deriving DecidableEq, Repr

/-- `xrealloc`, with memory for the block: what it held is kept, and the bytes behind are those of
`fresh`. -/
def xrealloc (fresh : Nat → UInt8) (ptr : Option (List UInt8)) (size : Nat) : List UInt8 :=
  let old := (ptr.getD []).take size
  old ++ (List.range (size - old.length)).map fresh

/-- "grow the line buffer as necessary" -/
def growLine (fresh : Nat → UInt8) (b : LineBuf) : Except LineFault LineBuf :=
  if b.idx > b.linebufsz - 2 then
    if b.linebufsz + GROWBY > INT_MAX then .error .overflow
    else
      let linebufsz := b.linebufsz + GROWBY
      .ok { b with linebuf := some (xrealloc fresh b.linebuf linebufsz.toNat), linebufsz := linebufsz }
  else .ok b

/-- `linebuf[idx] = ch` -/
def putLine (b : LineBuf) (ch : UInt8) : Except LineFault (List UInt8) :=
  (store8 (b.linebuf.getD []) b.idx ch).mapError .outside

/-- One turn of the loop, up to the tests of the byte. -/
def storeLine (fresh : Nat → UInt8) (b : LineBuf) (ch : UInt8) : Except LineFault LineBuf := do
  let b ← growLine fresh b
  let linebuf ← putLine b ch
  .ok { b with linebuf := some linebuf, idx := b.idx + 1 }

/-- The loop over the bytes of the stream, with those it leaves. What new memory holds may depend
on where the stream is. -/
def lineLoop (fresh : List UInt8 → Nat → UInt8) (c : Int) :
    List UInt8 → LineBuf → Except LineFault (LoopEnd × LineBuf × List UInt8)
  | [], b => .ok (.eof, b, [])
  | ch :: bytes, b => do
    let b ← storeLine (fresh bytes) b ch
    if ch = 0 then .ok (.nul, b, bytes)
    else if c < 2 ∧ ch = chLf then
      .ok (.newline, if c ≠ 0 then { b with idx := b.idx - 1 } else b, bytes)
    else lineLoop fresh c bytes b

/-- What follows the loop. -/
def endLine (b : LineBuf) (file : Stream) : Except LineFault (Option (List UInt8)) :=
  match b.linebuf with
  | none => .ok none
  | some _ => if file.ferror then .ok none else (putLine b 0).map some

/-- `private_get_line_from_file`: the buffer it returns, and the stream behind it. -/
def privateGetLineFromFile (fresh : List UInt8 → Nat → UInt8) (file : Stream) (c : Int) :
    Except LineFault (Option (List UInt8) × Stream) := do
  let (how, b, bytes) ← lineLoop fresh c file.bytes ⟨0, none, 0⟩
  let file := { file with bytes := bytes, ferror := file.ferror || (how == .eof && file.fails) }
  if how = .nul then .ok (b.linebuf, file)
  else do
    let linebuf ← endLine b file
    .ok (linebuf, file)

def bbGetChompedLineFromFile (fresh : List UInt8 → Nat → UInt8) (file : Stream) :
    Except LineFault (Option (List UInt8) × Stream) :=
  privateGetLineFromFile fresh file 1

/-- `n` calls, one after the other. -/
def lineCalls (fresh : List UInt8 → Nat → UInt8) :
    Nat → Stream → Except LineFault (List (Option (List UInt8)))
  | 0, _ => .ok []
  | n + 1, file => do
    let (line, file) ← bbGetChompedLineFromFile fresh file
    let lines ← lineCalls fresh n file
    .ok (line :: lines)

/-! ## The lines of a stream -/

/-- What stands between two newlines, and whether one ends it. -/
structure Piece where
  text : List UInt8
  ended : Bool
  deriving DecidableEq, Repr

def Piece.bytes (p : Piece) : List UInt8 := p.text ++ if p.ended then [chLf] else []

/-- The lines of a stream, `text` being the start of the first. -/
def piecesFrom (text : List UInt8) : List UInt8 → List Piece
  | [] => if text = [] then [] else [⟨text, false⟩]
  | c :: bytes =>
    if c = chLf then ⟨text, true⟩ :: piecesFrom [] bytes else piecesFrom (text ++ [c]) bytes

def pieces (bytes : List UInt8) : List Piece := piecesFrom [] bytes

/-- What a call returns: the text of a line with its terminator, and NULL where there is none. -/
def LineReturned (p : Option Piece) (linebuf : Option (List UInt8)) : Prop :=
  Option.Rel (fun p buf => ∃ tail, buf = p.text ++ 0 :: tail) p linebuf

theorem piecesFrom_line {line : List UInt8} (h : chLf ∉ line) (text bytes : List UInt8) :
    piecesFrom text (line ++ bytes) = piecesFrom (text ++ line) bytes := by
  induction line generalizing text with
  | nil => rw [List.nil_append, List.append_nil]
  | cons c line ih =>
    rw [List.mem_cons, not_or] at h
    rw [List.cons_append, piecesFrom, if_neg (Ne.symm h.1), ih h.2, List.append_assoc]
    rfl

/-- A stream has no line, or a first one and the lines behind it. -/
theorem pieces_cases (bytes : List UInt8) : bytes = [] ∧ pieces bytes = [] ∨
    ∃ p rest, bytes = p.bytes ++ rest ∧ chLf ∉ p.text ∧
      (p.ended = false → rest = [] ∧ p.text ≠ []) ∧ pieces bytes = p :: pieces rest := by
  by_cases hlf : chLf ∈ bytes
  · obtain ⟨line, rest, rfl, hline⟩ := List.eq_append_cons_of_mem hlf
    have hended : (⟨line, true⟩ : Piece).ended = false → rest = [] ∧ line ≠ [] := by
      intro h
      cases h
    refine .inr ⟨⟨line, true⟩, rest, by simp [Piece.bytes], hline, hended, ?_⟩
    rw [pieces, piecesFrom_line hline, piecesFrom, if_pos rfl]
    rfl
  · by_cases hnil : bytes = []
    · subst hnil
      exact .inl ⟨rfl, rfl⟩
    · refine .inr ⟨⟨bytes, false⟩, [], by simp [Piece.bytes], hlf, fun _ => ⟨rfl, hnil⟩, ?_⟩
      have h := piecesFrom_line hlf [] []
      rw [List.append_nil, List.nil_append] at h
      rw [pieces, h, piecesFrom, if_neg hnil]
      rfl

theorem Piece.bytes_ne {p : Piece} (h : p.ended = false → p.text ≠ []) : p.bytes ≠ [] := by
  obtain ⟨text, ended⟩ := p
  cases ended with
  | true => simp [Piece.bytes]
  | false => simpa [Piece.bytes] using h rfl

/-- What holds of the empty stream, and of one behind its first line if it holds of the rest, holds
of every stream. -/
@[elab_as_elim] theorem pieces_induction {motive : List UInt8 → Prop} (bytes : List UInt8)
    (nil : motive [])
    (line : ∀ (p : Piece) (rest : List UInt8), chLf ∉ p.text →
      (p.ended = false → rest = [] ∧ p.text ≠ []) → pieces (p.bytes ++ rest) = p :: pieces rest →
      motive rest → motive (p.bytes ++ rest)) : motive bytes := by
  induction hn : bytes.length using Nat.strongRecOn generalizing bytes with
  | ind n ih =>
    rcases pieces_cases bytes with ⟨rfl, -⟩ | ⟨p, rest, rfl, hlf, hlast, hp⟩
    · exact nil
    · have hne := List.length_pos_iff.mpr (Piece.bytes_ne fun h => (hlast h).2)
      rw [List.length_append] at hn
      exact line p rest hlf hlast hp (ih rest.length (by omega) rest rfl)

/-! ## The buffer -/

/-- The largest multiple of `GROWBY` that an `int` holds. -/
abbrev bufferMax : Nat := 2147483600

/-- The buffer holds the bytes `l`, and room for the terminator. -/
structure Filled (l : List UInt8) (b : LineBuf) : Prop where
  idx : b.idx = l.length
  size_le : b.linebufsz ≤ bufferMax
  size_mod : b.linebufsz % GROWBY = 0
  buf : ∃ tail, b.linebuf.getD [] = l ++ tail ∧ b.linebufsz = l.length + tail.length ∧
    tail.length ≤ GROWBY ∧ (tail = [] → b.linebuf = none ∧ l = [])

theorem filled_unread : Filled [] ⟨0, none, 0⟩ :=
  ⟨rfl, by decide, by decide, [], rfl, rfl, by decide, fun _ => ⟨rfl, rfl⟩⟩

/-- New memory stands behind the old. -/
theorem xrealloc_append (fresh : Nat → UInt8) (ptr : Option (List UInt8)) {size : Nat}
    (h : (ptr.getD []).length ≤ size) : ∃ more, xrealloc fresh ptr size = ptr.getD [] ++ more ∧
      (ptr.getD []).length + more.length = size := by
  refine ⟨_, by rw [xrealloc, List.take_of_length_le h], ?_⟩
  rw [List.length_map, List.length_range]
  omega

section Buffer
variable (fresh : Nat → UInt8) {l : List UInt8} {b : LineBuf}

/-- Behind a look at its size the buffer has room for one more byte and the terminator. -/
theorem growLine_room (h : Filled l b) (hroom : l.length + 1 < bufferMax) :
    ∃ b' tail, growLine fresh b = .ok b' ∧ b'.idx = l.length ∧ b'.linebuf = some (l ++ tail) ∧
      2 ≤ tail.length ∧ tail.length ≤ GROWBY + 1 ∧ b'.linebufsz = l.length + tail.length ∧
      b'.linebufsz ≤ bufferMax ∧ b'.linebufsz % GROWBY = 0 := by
  obtain ⟨hidx, hle, hmod, old, hold, hsize, hlen, hnone⟩ := h
  unfold GROWBY bufferMax at *
  rw [growLine, hidx]
  by_cases hfull : (l.length : Int) > b.linebufsz - 2
  · -- one byte is left at most, and a multiple of 80 below the largest one has another behind it
    have hmax : ¬ b.linebufsz + 80 > INT_MAX := by
      unfold INT_MAX
      omega
    have hgrow : (b.linebuf.getD []).length ≤ (b.linebufsz + 80).toNat := by
      rw [hold, List.length_append]
      omega
    obtain ⟨more, hmore, hmlen⟩ := xrealloc_append fresh b.linebuf hgrow
    rw [hold, List.length_append] at hmlen
    refine ⟨_, old ++ more, (if_pos hfull).trans (if_neg hmax), rfl, ?_, ?_, ?_, ?_, ?_, ?_⟩
    · rw [hmore, hold, List.append_assoc]
    · rw [List.length_append]
      omega
    · rw [List.length_append]
      omega
    · rw [List.length_append]
      show b.linebufsz + 80 = _
      omega
    · show b.linebufsz + 80 ≤ _
      omega
    · show (b.linebufsz + 80) % 80 = 0
      omega
  -- two bytes are left, so there is a buffer
  · obtain ⟨buf, hbuf⟩ : ∃ buf, b.linebuf = some buf := by
      cases hb : b.linebuf with
      | some buf => exact ⟨buf, rfl⟩
      | none =>
        rw [hb] at hold
        have hnil := congrArg List.length hold
        rw [List.length_append] at hnil
        simp only [Option.getD_none, List.length_nil] at hnil
        omega
    rw [hbuf] at hold
    exact ⟨b, old, if_neg hfull, hidx, hbuf.trans (congrArg some hold), by omega, by omega, hsize,
      hle, hmod⟩

theorem storeLine_filled (h : Filled l b) (hroom : l.length + 1 < bufferMax) (ch : UInt8) :
    ∃ b', storeLine fresh b ch = .ok b' ∧ Filled (l ++ [ch]) b' := by
  obtain ⟨b', tail, hgrow, hidx, hbuf, htwo, hlen, hsize, hle, hmod⟩ :=
    growLine_room fresh h hroom
  obtain ⟨x, tail, rfl⟩ := List.exists_cons_of_length_pos (show 0 < tail.length by omega)
  have hput : putLine b' ch = .ok (l ++ ch :: tail) := by
    rw [putLine, hbuf, hidx, Option.getD_some, store8_append]
    rfl
  rw [List.length_cons] at htwo hlen hsize
  have hlen' : (l ++ [ch]).length = l.length + 1 := by
    rw [List.length_append, List.length_singleton]
  refine ⟨{ b' with linebuf := some (l ++ ch :: tail), idx := b'.idx + 1 }, ?_, ?_⟩
  · rw [storeLine, hgrow, ok_bind, hput, ok_bind]
  · refine ⟨?_, hle, hmod, tail, ?_, ?_, ?_, ?_⟩
    · rw [hlen', hidx]
      rfl
    · rw [List.append_assoc]
      rfl
    · rw [hlen', hsize]
      omega
    · omega
    · intro hnil
      rw [hnil, List.length_nil] at htwo
      omega

/-- A buffer that cannot grow any more takes no byte but those it has room for. -/
theorem storeLine_overflow (h : Filled l b) (hfull : bufferMax ≤ l.length + 1) (ch : UInt8) :
    storeLine fresh b ch = .error .overflow := by
  obtain ⟨hidx, hle, hmod, old, hold, hsize, hlen, hnone⟩ := h
  unfold GROWBY bufferMax at *
  have hgrow : growLine fresh b = .error .overflow := by
    rw [growLine, hidx, if_pos (by omega), if_pos (by unfold GROWBY INT_MAX; omega)]
  rw [storeLine, hgrow, error_bind]

theorem Filled.some (h : Filled l b) (hl : l ≠ []) :
    ∃ x tail, b.linebuf = some (l ++ x :: tail) := by
  obtain ⟨tail, hold, -, -, hnone⟩ := h.buf
  cases hb : b.linebuf with
  | none =>
    rw [hb] at hold
    exact absurd (List.append_eq_nil_iff.mp hold.symm).1 hl
  | some buf =>
    cases tail with
    | nil => exact absurd (hnone rfl).2 hl
    | cons x tail =>
      rw [hb] at hold
      exact ⟨x, tail, congrArg _ hold⟩

/-- The terminator takes the place of the byte at `idx`. -/
theorem endLine_text (file : Stream) {text : List UInt8} {x : UInt8} {tail : List UInt8}
    (hbuf : b.linebuf = .some (text ++ x :: tail)) (hidx : b.idx = text.length)
    (hf : file.ferror = false) : endLine b file = .ok (.some (text ++ 0 :: tail)) := by
  have hput : putLine b 0 = .ok (text ++ 0 :: tail) := by
    rw [putLine, hbuf, hidx, Option.getD_some, store8_append]
    rfl
  rw [endLine, hbuf]
  show (if file.ferror = true then _ else _) = _
  rw [hf, if_neg Bool.false_ne_true, hput]
  rfl

end Buffer

/-! ## The loop -/

/-- A byte that the loop stores and goes on from. -/
def Plain (line : List UInt8) : Prop := ∀ c ∈ line, c ≠ 0 ∧ c ≠ chLf

section Loop
variable (fresh : List UInt8 → Nat → UInt8) {l line : List UInt8} {b : LineBuf}

/-- One turn: a byte that leaves room for the terminator is stored. -/
theorem lineLoop_next (h : Filled l b) (hroom : l.length + 1 < bufferMax) {ch : UInt8}
    (hch : ch ≠ 0 ∧ ch ≠ chLf) (bytes : List UInt8) : ∃ b', Filled (l ++ [ch]) b' ∧
      lineLoop fresh 1 (ch :: bytes) b = lineLoop fresh 1 bytes b' := by
  obtain ⟨b', hstore, hb'⟩ := storeLine_filled (fresh bytes) h hroom ch
  refine ⟨b', hb', ?_⟩
  rw [lineLoop, hstore, ok_bind, if_neg hch.1, if_neg fun h => hch.2 h.2]

theorem lineLoop_stores (h : Filled l b) (hline : Plain line)
    (hroom : l.length + line.length < bufferMax) (bytes : List UInt8) :
    ∃ b', Filled (l ++ line) b' ∧
      lineLoop fresh 1 (line ++ bytes) b = lineLoop fresh 1 bytes b' := by
  induction line generalizing l b with
  | nil => exact ⟨b, (List.append_nil l).symm ▸ h, rfl⟩
  | cons ch line ih =>
    obtain ⟨hch, hline⟩ := List.forall_mem_cons.mp hline
    rw [List.length_cons] at hroom
    obtain ⟨b₁, hb₁, hnext⟩ := lineLoop_next fresh h (by omega) hch (line ++ bytes)
    have hroom₁ : (l ++ [ch]).length + line.length < bufferMax := by
      rw [List.length_append, List.length_singleton]
      omega
    obtain ⟨b₂, hb₂, hloop⟩ := ih hb₁ hline hroom₁
    rw [List.append_assoc, List.singleton_append] at hb₂
    exact ⟨b₂, hb₂, hnext.trans hloop⟩

/-- No byte that needs a larger buffer than an `int` can count is stored. -/
theorem lineLoop_overflow (h : Filled l b) (hline : Plain line)
    (hlong : bufferMax ≤ l.length + line.length + 1) (ch : UInt8) (bytes : List UInt8) :
    lineLoop fresh 1 (line ++ ch :: bytes) b = .error .overflow := by
  induction line generalizing l b with
  | nil => rw [List.nil_append, lineLoop, storeLine_overflow _ h hlong, error_bind]
  | cons c line ih =>
    obtain ⟨hc, hline⟩ := List.forall_mem_cons.mp hline
    rw [List.length_cons] at hlong
    by_cases hroom : l.length + 1 < bufferMax
    · obtain ⟨b₁, hb₁, hnext⟩ :=
        lineLoop_next fresh h hroom hc (line ++ ch :: bytes)
      refine hnext.trans (ih hb₁ hline ?_)
      rw [List.length_append, List.length_singleton]
      omega
    · rw [List.cons_append, lineLoop, storeLine_overflow _ h (Nat.not_lt.mp hroom), error_bind]

end Loop

/-! ## The calls -/

section Calls
variable (fresh : List UInt8 → Nat → UInt8) {text rest : List UInt8}

theorem getLine_of_loop {bytes : List UInt8} {how : LoopEnd} {b : LineBuf} {x : UInt8}
    {tail : List UInt8} (hloop : lineLoop fresh 1 bytes ⟨0, none, 0⟩ = .ok (how, b, rest))
    (hhow : how ≠ .nul) (hbuf : b.linebuf = some (text ++ x :: tail)) (hidx : b.idx = text.length) :
    bbGetChompedLineFromFile fresh ⟨bytes, false, false⟩ =
      .ok (some (text ++ 0 :: tail), ⟨rest, false, false⟩) := by
  have hend := endLine_text ⟨rest, false, false⟩ hbuf hidx rfl
  simp only [bbGetChompedLineFromFile, privateGetLineFromFile, hloop, ok_bind, if_neg hhow,
    Bool.and_false, Bool.or_false, hend]

/-- A call returns a line without its newline, and leaves the stream behind that. -/
theorem getLine_newline (hplain : Plain text) (hfits : text.length + 1 < bufferMax) :
    ∃ tail, bbGetChompedLineFromFile fresh ⟨text ++ chLf :: rest, false, false⟩ =
      .ok (some (text ++ 0 :: tail), ⟨rest, false, false⟩) := by
  have hroom : ([] : List UInt8).length + text.length < bufferMax := by
    rw [List.length_nil]
    omega
  obtain ⟨b₁, hb₁, hloop⟩ :=
    lineLoop_stores fresh filled_unread hplain hroom (chLf :: rest)
  rw [List.nil_append] at hb₁
  obtain ⟨b₂, hstore, hb₂⟩ := storeLine_filled (fresh rest) hb₁ hfits chLf
  obtain ⟨x, tail, hbuf⟩ := hb₂.some (List.append_ne_nil_of_right_ne_nil _ (by decide))
  rw [List.append_assoc, List.singleton_append] at hbuf
  -- the newline is behind the text, and the terminator takes its place
  have hidx : b₂.idx - 1 = text.length := by
    rw [hb₂.idx, List.length_append, List.length_singleton]
    omega
  have hnewline : lineLoop fresh 1 (text ++ chLf :: rest) ⟨0, none, 0⟩ =
      .ok (.newline, { b₂ with idx := b₂.idx - 1 }, rest) := by
    rw [hloop, lineLoop, hstore, ok_bind]
    rfl
  exact ⟨x :: tail, getLine_of_loop fresh (b := { b₂ with idx := b₂.idx - 1 }) hnewline (by decide)
    hbuf hidx⟩

/-- A line that nothing ends is returned at the end of the stream. -/
theorem getLine_last (hplain : Plain text) (hne : text ≠ []) (hfits : text.length < bufferMax) :
    ∃ tail, bbGetChompedLineFromFile fresh ⟨text, false, false⟩ =
      .ok (some (text ++ 0 :: tail), ⟨[], false, false⟩) := by
  have hroom : ([] : List UInt8).length + text.length < bufferMax := by
    rw [List.length_nil, Nat.zero_add]
    exact hfits
  obtain ⟨b, hb, hloop⟩ := lineLoop_stores fresh filled_unread hplain hroom []
  rw [List.append_nil] at hloop
  obtain ⟨x, tail, hbuf⟩ := hb.some hne
  have heof : lineLoop fresh 1 text ⟨0, none, 0⟩ = .ok (.eof, b, []) := hloop
  exact ⟨tail, getLine_of_loop fresh heof (by decide) hbuf hb.idx⟩

theorem getLine_overflow (hplain : Plain text) (hlong : bufferMax ≤ text.length + 1)
    (ch : UInt8) (rest : List UInt8) :
    bbGetChompedLineFromFile fresh ⟨text ++ ch :: rest, false, false⟩ = .error .overflow := by
  have hroom : bufferMax ≤ ([] : List UInt8).length + text.length + 1 := by
    rw [List.length_nil, Nat.zero_add]
    exact hlong
  have hloop := lineLoop_overflow fresh filled_unread hplain hroom ch rest
  rw [bbGetChompedLineFromFile, privateGetLineFromFile, hloop, error_bind]

end Calls

/-- A line as it stands in a stream, before the bytes `rest`. -/
structure Piece.Before (p : Piece) (rest : List UInt8) : Prop where
  plain : Plain p.text
  last : p.ended = false → rest = [] ∧ p.text ≠ []

theorem piece_plain {p : Piece} {rest : List UInt8} (hnul : 0 ∉ p.bytes ++ rest)
    (hlf : chLf ∉ p.text) : Plain p.text := by
  intro c hc
  refine ⟨?_, ?_⟩
  · rintro rfl
    exact hnul (List.mem_append_left _ (List.mem_append_left _ hc))
  · rintro rfl
    exact hlf hc

section Lines
variable (fresh : List UInt8 → Nat → UInt8) {p : Piece} {rest : List UInt8}

theorem getLine_fits (h : p.Before rest) (hfits : p.bytes.length < bufferMax) :
    ∃ tail, bbGetChompedLineFromFile fresh ⟨p.bytes ++ rest, false, false⟩ =
      .ok (some (p.text ++ 0 :: tail), ⟨rest, false, false⟩) := by
  obtain ⟨text, ended⟩ := p
  obtain ⟨hplain, hlast⟩ := h
  cases ended with
  | true =>
    have hbytes : (⟨text, true⟩ : Piece).bytes ++ rest = text ++ chLf :: rest :=
      List.append_assoc text [chLf] rest
    have hlen : (⟨text, true⟩ : Piece).bytes.length = text.length + 1 := List.length_append
    rw [hbytes]
    exact getLine_newline fresh hplain (hlen ▸ hfits)
  | false =>
    obtain ⟨rfl, hne⟩ := hlast rfl
    have hbytes : (⟨text, false⟩ : Piece).bytes = text := List.append_nil text
    rw [hbytes] at hfits ⊢
    rw [List.append_nil]
    exact getLine_last fresh hplain hne hfits

theorem getLine_long (h : p.Before rest) (hlong : bufferMax ≤ p.bytes.length) :
    bbGetChompedLineFromFile fresh ⟨p.bytes ++ rest, false, false⟩ = .error .overflow := by
  obtain ⟨text, ended⟩ := p
  obtain ⟨hplain, hlast⟩ := h
  obtain ⟨line, ch, hbytes, hline⟩ :
      ∃ line ch, (⟨text, ended⟩ : Piece).bytes = line ++ [ch] ∧ Plain line := by
    cases ended with
    | true => exact ⟨text, chLf, rfl, hplain⟩
    | false =>
      have hne := (hlast rfl).2
      have hall := List.dropLast_append_getLast hne
      exact ⟨text.dropLast, text.getLast hne, (List.append_nil text).trans hall.symm,
        fun c hc => hplain c (List.dropLast_subset text hc)⟩
  rw [hbytes, List.length_append, List.length_singleton] at hlong
  rw [hbytes, List.append_assoc, List.singleton_append]
  exact getLine_overflow fresh hline hlong ch rest

end Lines

section Runs
variable (fresh : List UInt8 → Nat → UInt8)

theorem lineCalls_succ {n : Nat} {file file' : Stream} {line : Option (List UInt8)}
    (h : bbGetChompedLineFromFile fresh file = .ok (line, file')) :
    lineCalls fresh (n + 1) file = (lineCalls fresh n file').map (line :: ·) := by
  simp only [lineCalls, h, ok_bind]
  cases lineCalls fresh n file' <;> rfl

/-- What `n` calls are to return, in the order of the calls. -/
abbrev firstPieces (bytes : List UInt8) (n : Nat) : List (Option Piece) :=
  (List.range n).map ((pieces bytes)[·]?)

theorem firstPieces_empty (n : Nat) : firstPieces [] (n + 1) = none :: firstPieces [] n := by
  rw [firstPieces, List.range_succ_eq_map, List.map_cons, List.map_map]
  rfl

theorem firstPieces_cons {bytes rest : List UInt8} {p : Piece} (h : pieces bytes = p :: pieces rest)
    (n : Nat) : firstPieces bytes (n + 1) = some p :: firstPieces rest n := by
  rw [firstPieces, h, List.range_succ_eq_map, List.map_cons, List.map_map]
  rfl

theorem lineCalls_fits (n : Nat) {bytes : List UInt8} (hnul : 0 ∉ bytes)
    (hfits : ∀ p ∈ pieces bytes, p.bytes.length < bufferMax) :
    ∃ rs, lineCalls fresh n ⟨bytes, false, false⟩ = .ok rs ∧
      List.Forall₂ LineReturned (firstPieces bytes n) rs := by
  induction n generalizing bytes with
  | zero => exact ⟨[], rfl, .nil⟩
  | succ n ih =>
    rcases pieces_cases bytes with ⟨rfl, hp⟩ | ⟨p, rest, rfl, hlf, hlast, hp⟩
    · obtain ⟨rs, hrs, hall⟩ := ih hnul hfits
      have hcall : bbGetChompedLineFromFile fresh ⟨[], false, false⟩ =
          .ok (none, ⟨[], false, false⟩) := rfl
      refine ⟨none :: rs, by rw [lineCalls_succ fresh hcall, hrs]; rfl, ?_⟩
      rw [firstPieces_empty]
      exact .cons .none hall
    · rw [hp, List.forall_mem_cons] at hfits
      have hbefore : p.Before rest := ⟨piece_plain hnul hlf, hlast⟩
      obtain ⟨tail, hcall⟩ := getLine_fits fresh hbefore hfits.1
      obtain ⟨rs, hrs, hall⟩ := ih (fun h => hnul (List.mem_append_right _ h)) hfits.2
      refine ⟨some (p.text ++ 0 :: tail) :: rs, by rw [lineCalls_succ fresh hcall, hrs]; rfl, ?_⟩
      rw [firstPieces_cons hp]
      exact .cons (.some ⟨tail, rfl⟩) hall

/-- The calls come to the first line that is too long. -/
theorem lineCalls_long {bytes : List UInt8} (hnul : 0 ∉ bytes) {long : Piece}
    (hmem : long ∈ pieces bytes) (hlong : bufferMax ≤ long.bytes.length) :
    ∃ n, lineCalls fresh n ⟨bytes, false, false⟩ = .error .overflow := by
  induction bytes using pieces_induction with
  | nil => exact absurd hmem List.not_mem_nil
  | line p rest hlf hlast hp ih =>
    have hbefore : p.Before rest := ⟨piece_plain hnul hlf, hlast⟩
    by_cases hfits : p.bytes.length < bufferMax
    · obtain ⟨tail, hcall⟩ := getLine_fits fresh hbefore hfits
      have hrest : long ∈ pieces rest := by
        rw [hp, List.mem_cons] at hmem
        refine hmem.resolve_left fun heq => ?_
        rw [heq] at hlong
        exact absurd hfits (Nat.not_lt.mpr hlong)
      obtain ⟨n, hn⟩ := ih (fun h => hnul (List.mem_append_right _ h)) hrest
      exact ⟨n + 1, by rw [lineCalls_succ fresh hcall, hn]; rfl⟩
    · refine ⟨1, ?_⟩
      rw [lineCalls, getLine_long fresh hbefore (Nat.not_lt.mp hfits), error_bind]

end Runs

/-- The calls return the lines of a stream in order, each with its terminator, and NULL behind the
last, with no access outside the buffer, just where every line can be counted. -/
theorem lines_returned_iff {fresh : List UInt8 → Nat → UInt8} {bytes : List UInt8}
    (hnul : 0 ∉ bytes) :
    (∀ n, ∃ rs, lineCalls fresh n ⟨bytes, false, false⟩ = .ok rs ∧
      List.Forall₂ LineReturned (firstPieces bytes n) rs) ↔
    ∀ p ∈ pieces bytes, p.bytes.length < bufferMax := by
  refine ⟨?_, fun hfits n => lineCalls_fits fresh n hnul hfits⟩
  intro h p hp
  by_contra hlong
  obtain ⟨n, hn⟩ := lineCalls_long fresh hnul hp (Nat.not_lt.mp hlong)
  obtain ⟨rs, hrs, -⟩ := h n
  rw [hn] at hrs
  cases hrs

/-- "a", an empty line and "b" that nothing ends. -/
theorem lines_returned_three : (0 : UInt8) ∉ [97, 10, 10, 98] ∧
    ∀ n, ∃ rs, lineCalls (fun _ _ => 0) n ⟨[97, 10, 10, 98], false, false⟩ = .ok rs ∧
      List.Forall₂ LineReturned (firstPieces [97, 10, 10, 98] n) rs :=
  ⟨by decide, (lines_returned_iff (by decide)).mpr (by decide)⟩

theorem lineCalls_replicate (fresh : List UInt8 → Nat → UInt8) {n : Nat}
    (h : bufferMax ≤ n + 1) {c : UInt8} (hc : c ≠ 0 ∧ c ≠ chLf) :
    lineCalls fresh 1 ⟨List.replicate (n + 1) c, false, false⟩ = .error .overflow := by
  have hplain : Plain (List.replicate n c) := by
    intro b hb
    rw [List.eq_of_mem_replicate hb]
    exact hc
  have hlong : bufferMax ≤ (List.replicate n c).length + 1 := by
    rw [List.length_replicate]
    exact h
  rw [lineCalls, List.replicate_succ', getLine_overflow fresh hplain hlong, error_bind]

/-- A stream of 2147483600 bytes and no newline. -/
theorem lines_returned_long : ¬ ∀ (fresh : List UInt8 → Nat → UInt8) (bytes : List UInt8),
    0 ∉ bytes → ∀ n, ∃ rs, lineCalls fresh n ⟨bytes, false, false⟩ = .ok rs ∧
      List.Forall₂ LineReturned (firstPieces bytes n) rs := by
  intro h
  have hnul : (0 : UInt8) ∉ List.replicate (2147483599 + 1) 97 := by
    intro h0
    exact absurd (List.eq_of_mem_replicate h0) (by decide)
  obtain ⟨rs, hrs, -⟩ := h (fun _ _ => 0) _ hnul 1
  rw [lineCalls_replicate (fun _ _ => 0) (by decide) (by decide)] at hrs
  cases hrs

end Lichee.Makedevs

import Lichee.Base.CStr
import Lichee.Base.Errors
import Mathlib.Data.List.Basic

/- Reads and writes of a buffer that may lie outside it. An address counts from the buffer's first
   byte and may be negative; an access to a byte that is not the buffer's is a `Fault`. A read
   succeeds just where all its bytes are inside (`load32_eq`, `inside_of_load32`), and what it
   returns is then `byteAt`, `half` or `word` of the address. Where a string stands at an address
   (`StringAt`), the string functions called on it stay in the buffer. -/
namespace Lichee.Base

/-- An access to the byte at `addr`, which is not the buffer's. -/
structure Fault where
  addr : Int
  deriving DecidableEq, Repr

def load8 (buf : List UInt8) (addr : Int) : Except Fault UInt8 :=
  match addr with
  | .ofNat a => if h : a < buf.length then .ok buf[a] else .error ⟨a⟩
  | .negSucc a => .error ⟨.negSucc a⟩

/-- Two bytes, the low one first. -/
def load16 (buf : List UInt8) (addr : Int) : Except Fault UInt16 := do
  let lo ← load8 buf addr
  let hi ← load8 buf (addr + 1)
  .ok (lo.toUInt16 + 256 * hi.toUInt16)

/-- Four bytes. -/
def load32 (buf : List UInt8) (addr : Int) : Except Fault UInt32 := do
  let lo ← load16 buf addr
  let hi ← load16 buf (addr + 2)
  .ok (lo.toUInt32 + 65536 * hi.toUInt32)

def store8 (buf : List UInt8) (addr : Int) (v : UInt8) : Except Fault (List UInt8) :=
  match addr with
  | .ofNat a => if a < buf.length then .ok (buf.set a v) else .error ⟨a⟩
  | .negSucc a => .error ⟨.negSucc a⟩

/-- Two bytes, the low one first. -/
def store16 (buf : List UInt8) (addr : Int) (v : UInt16) : Except Fault (List UInt8) := do
  let buf ← store8 buf addr v.toUInt8
  store8 buf (addr + 1) (v >>> 8).toUInt8

/-- The byte at an address, 0 outside the buffer. -/
def byteAt (buf : List UInt8) (a : Nat) : UInt8 := buf.getD a 0

def half (buf : List UInt8) (a : Nat) : UInt16 :=
  (byteAt buf a).toUInt16 + 256 * (byteAt buf (a + 1)).toUInt16

def word (buf : List UInt8) (a : Nat) : UInt32 :=
  (half buf a).toUInt32 + 65536 * (half buf (a + 2)).toUInt32

/-- `!strncmp(s, lit, n)` of a string at `p` and the `n` characters of a literal. -/
def strncmpAt (buf : List UInt8) : Nat → List UInt8 → Except Fault Bool
  | _, [] => .ok true
  | p, c :: lit => do
    let b ← load8 buf p
    if b = c then strncmpAt buf (p + 1) lit else .ok false

/-- The string at `p`, read up to its terminator. -/
def strAt (buf : List UInt8) (p : Nat) : Except Fault (List UInt8) :=
  let s := (buf.drop p).takeWhile (· != 0)
  if p + s.length < buf.length then .ok s else .error ⟨buf.length⟩

section Loads
variable {buf : List UInt8} {a : Nat} {addr : Int}

theorem load8_eq (h : a < buf.length) : load8 buf a = .ok (byteAt buf a) := by
  have hload : load8 buf a = .ok buf[a] := dif_pos h
  rw [hload, byteAt, List.getD_eq_getElem?_getD, List.getElem?_eq_getElem h, Option.getD_some]

theorem load8_fault (h : buf.length ≤ a) : load8 buf a = .error ⟨a⟩ :=
  dif_neg (Nat.not_lt.mpr h)

theorem load16_eq (h : a + 2 ≤ buf.length) : load16 buf a = .ok (half buf a) := by
  have hhi : load8 buf ((a : Int) + 1) = .ok (byteAt buf (a + 1)) :=
    load8_eq (a := a + 1) (by omega)
  rw [load16, load8_eq (by omega), ok_bind, hhi, ok_bind, half]

theorem load32_eq (h : a + 4 ≤ buf.length) : load32 buf a = .ok (word buf a) := by
  have hhi : load16 buf ((a : Int) + 2) = .ok (half buf (a + 2)) :=
    load16_eq (a := a + 2) (by omega)
  rw [load32, load16_eq (by omega), ok_bind, hhi, ok_bind, word]

/-- A byte that was read is inside. -/
theorem inside_of_load8 {v : UInt8} (h : load8 buf addr = .ok v) :
    0 ≤ addr ∧ addr < buf.length := by
  cases addr with
  | ofNat a =>
    by_cases ha : a < buf.length
    · exact ⟨Int.natCast_nonneg a, Int.ofNat_lt.mpr ha⟩
    · rw [show load8 buf (.ofNat a) = .error ⟨a⟩ from dif_neg ha] at h
      cases h
  | negSucc a => cases h

theorem inside_of_load16 {v : UInt16} (h : load16 buf addr = .ok v) :
    0 ≤ addr ∧ addr + 2 ≤ buf.length := by
  obtain ⟨lo, hlo, h⟩ := bind_eq_ok.mp h
  obtain ⟨hi, hhi, -⟩ := bind_eq_ok.mp h
  have h₁ := inside_of_load8 hlo
  have h₂ := inside_of_load8 hhi
  omega

theorem inside_of_load32 {v : UInt32} (h : load32 buf addr = .ok v) :
    0 ≤ addr ∧ addr + 4 ≤ buf.length := by
  obtain ⟨lo, hlo, h⟩ := bind_eq_ok.mp h
  obtain ⟨hi, hhi, -⟩ := bind_eq_ok.mp h
  have h₁ := inside_of_load16 hlo
  have h₂ := inside_of_load16 hhi
  omega

/-- A read behind a part of the buffer. -/
theorem load8_append (l : List UInt8) (x : UInt8) (r : List UInt8) :
    load8 (l ++ x :: r) l.length = .ok x := by
  rw [load8_eq (by rw [List.length_append, List.length_cons]; omega), byteAt,
    List.getD_eq_getElem?_getD, List.getElem?_append_right le_rfl, Nat.sub_self,
    List.getElem?_cons_zero, Option.getD_some]

/-- A write behind a part of the buffer takes the place of the next byte. -/
theorem store8_append (l : List UInt8) (x : UInt8) (r : List UInt8) (v : UInt8) :
    store8 (l ++ x :: r) l.length v = .ok (l ++ v :: r) := by
  have hlen : l.length < (l ++ x :: r).length := by
    rw [List.length_append, List.length_cons]
    omega
  have hset : (l ++ x :: r).set l.length v = l ++ v :: r := by
    rw [List.set_append_right _ _ le_rfl, Nat.sub_self, List.set_cons_zero]
  calc store8 (l ++ x :: r) l.length v
      = .ok ((l ++ x :: r).set l.length v) := if_pos hlen
    _ = .ok (l ++ v :: r) := by rw [hset]

theorem store16_append (l : List UInt8) (x y : UInt8) (r : List UInt8) (v : UInt16) :
    store16 (l ++ x :: y :: r) l.length v =
      .ok (l ++ v.toUInt8 :: (v >>> 8).toUInt8 :: r) := by
  have hnext := store8_append (l ++ [v.toUInt8]) y r (v >>> 8).toUInt8
  rw [List.length_append, List.length_singleton, List.append_assoc, List.append_assoc] at hnext
  rw [store16, store8_append, ok_bind]
  exact hnext

end Loads

/-! ## Strings -/

/-- The string `s` and its terminator stand at `p`. -/
structure StringAt (buf : List UInt8) (p : Nat) (s : List UInt8) : Prop where
  split : ∃ pre rest, buf = pre ++ (s ++ 0 :: rest) ∧ pre.length = p
  nul_free : 0 ∉ s

namespace StringAt
variable {buf s : List UInt8} {p : Nat}

/-- A string goes on behind each of its bytes. -/
theorem drop (h : StringAt buf p s) {n : Nat} (hn : n ≤ s.length) :
    StringAt buf (p + n) (s.drop n) := by
  obtain ⟨pre, rest, hbuf, hp⟩ := h.split
  refine ⟨⟨pre ++ s.take n, rest, ?_, ?_⟩, fun h0 => h.nul_free (List.mem_of_mem_drop h0)⟩
  · rw [hbuf, List.append_assoc, ← List.append_assoc (s.take n), List.take_append_drop]
  · rw [List.length_append, List.length_take, hp, Nat.min_eq_left hn]

/-- The first byte of a string, its terminator where the string is empty. -/
theorem load8 (h : StringAt buf p s) : Base.load8 buf p = .ok (s.headD 0) := by
  obtain ⟨pre, rest, rfl, rfl⟩ := h.split
  cases s with
  | nil => exact load8_append pre 0 rest
  | cons c s => exact load8_append pre c (s ++ 0 :: rest)

/-- A comparison with a literal stays in the string. -/
theorem strncmpAt (h : StringAt buf p s) {lit : List UInt8} (hlit : 0 ∉ lit) :
    Base.strncmpAt buf p lit = .ok (lit.isPrefixOf s) := by
  induction lit generalizing p s with
  | nil => rfl
  | cons c lit ih =>
    have hc : 0 ≠ c := (List.ne_and_not_mem_of_not_mem_cons hlit).1
    rw [Base.strncmpAt, h.load8, ok_bind]
    cases s with
    | nil => exact if_neg hc
    | cons b s =>
      by_cases hb : b = c
      · have htail : StringAt buf (p + 1) s := h.drop (n := 1) (Nat.le_add_left 1 _)
        rw [List.headD_cons, if_pos hb, ih htail (List.not_mem_of_not_mem_cons hlit), hb,
          List.isPrefixOf_cons_cons_self]
      · rw [List.headD_cons, if_neg hb]
        simp [List.isPrefixOf_cons_cons, Ne.symm hb]

theorem strAt (h : StringAt buf p s) : Base.strAt buf p = .ok s := by
  obtain ⟨pre, rest, rfl, rfl⟩ := h.split
  have hs : ((pre ++ (s ++ 0 :: rest)).drop pre.length).takeWhile (· != 0) = s := by
    rw [List.drop_left]
    exact cstr_append_nul h.nul_free rest
  have hlen : pre.length + s.length < (pre ++ (s ++ 0 :: rest)).length := by
    simp only [List.length_append, List.length_cons]
    omega
  simp only [Base.strAt, hs]
  exact if_pos hlen

end StringAt

end Lichee.Base

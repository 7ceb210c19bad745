import Mathlib.Data.List.Basic
import Mathlib.Tactic.Ring

/- Byte-level memory images. A 32-bit word is stored low byte first, and an image is
   a list of bytes read at byte addresses; a read that does not fit in the image is
   `none`. Every structure the images hold is a whole number of words, so the one
   round trip needed is `read32_le32`: a word read back at the address it was laid
   out at is the word. -/
namespace Lichee.Base

/-- The four bytes of a word, low byte first. -/
def le32 (w : UInt32) : List UInt8 :=
  [.ofNat w.toNat, .ofNat (w.toNat / 256), .ofNat (w.toNat / 65536), .ofNat (w.toNat / 16777216)]

/-- The word at the front of a byte list. -/
def word32 : List UInt8 → Option UInt32
  | a :: b :: c :: d :: _ =>
    some (.ofNat (a.toNat + 256 * b.toNat + 65536 * c.toNat + 16777216 * d.toNat))
  | _ => none

/-- The word at byte address `addr` of an image. A negative address is outside it. -/
def read32 (img : List UInt8) : Int → Option UInt32
  | .ofNat addr => word32 (img.drop addr)
  | .negSucc _ => none

/-- The `n` bytes at byte address `addr` of an image. -/
def readBytes (img : List UInt8) (n : Nat) : Int → Option (List UInt8)
  | .ofNat addr => if addr + n ≤ img.length then some ((img.drop addr).take n) else none
  | .negSucc _ => none

/-- The image with the word `w` stored at byte address `addr`. -/
def write32 (img : List UInt8) (w : UInt32) : Int → Option (List UInt8)
  | .ofNat addr =>
    if addr + 4 ≤ img.length then some (img.take addr ++ (le32 w ++ img.drop (addr + 4))) else none
  | .negSucc _ => none

/-- `n` zero bytes. -/
def zeros (n : Nat) : List UInt8 := List.replicate n 0

/-- `l` followed by zero bytes up to the length `n`. -/
def padTo (n : Nat) (l : List UInt8) : List UInt8 := l ++ zeros (n - l.length)

@[simp] theorem le32_length (w : UInt32) : (le32 w).length = 4 := rfl

@[simp] theorem zeros_length (n : Nat) : (zeros n).length = n := List.length_replicate

@[simp] theorem zeros_zero : zeros 0 = [] := rfl

theorem padTo_length (n : Nat) (l : List UInt8) : (padTo n l).length = max n l.length := by
  simp only [padTo, List.length_append, zeros_length]; omega

theorem padTo_length_of_le {n : Nat} {l : List UInt8} (h : l.length ≤ n) :
    (padTo n l).length = n := by
  rw [padTo_length]; omega

theorem padTo_self {n : Nat} {l : List UInt8} (h : l.length = n) : padTo n l = l := by
  subst h; simp [padTo]

theorem zeros_append (m n : Nat) : zeros m ++ zeros n = zeros (m + n) :=
  List.replicate_append_replicate

theorem word32_le32 (w : UInt32) (rest : List UInt8) : word32 (le32 w ++ rest) = some w := by
  have hw := w.toNat_lt
  simp only [le32, List.cons_append, word32, Option.some.injEq]
  rw [← UInt32.toNat_inj]
  simp only [UInt8.toNat_ofNat', UInt32.toNat_ofNat']
  omega

/-- Four bytes are enough for a word. -/
theorem exists_word32 {l : List UInt8} (h : 4 ≤ l.length) : ∃ w, word32 l = some w := by
  match l, h with
  | a :: b :: c :: d :: _, _ => exact ⟨_, rfl⟩

/-- Any four bytes are a word. -/
theorem exists_le32 {l : List UInt8} (h : l.length = 4) : ∃ w, le32 w = l := by
  match l, h with
  | [a, b, c, d], _ =>
    have ha := a.toNat_lt
    have hb := b.toNat_lt
    have hc := c.toNat_lt
    have hd := d.toNat_lt
    refine ⟨.ofNat (a.toNat + 256 * b.toNat + 65536 * c.toNat + 16777216 * d.toNat), ?_⟩
    simp only [le32, UInt32.toNat_ofNat', List.cons.injEq, and_true, ← UInt8.toNat_inj,
      UInt8.toNat_ofNat']
    omega

/-- A word laid out after `pre` is read back at the address `pre` ends at. -/
theorem read32_le32 (pre : List UInt8) (w : UInt32) (rest : List UInt8) {addr : Int}
    (h : addr = pre.length) : read32 (pre ++ (le32 w ++ rest)) addr = some w := by
  subst h
  show word32 ((pre ++ (le32 w ++ rest)).drop pre.length) = some w
  rw [List.drop_left, word32_le32]

/-- Bytes laid out after `pre` are read back at the address `pre` ends at. -/
theorem readBytes_append (pre mid rest : List UInt8) {n : Nat} {addr : Int}
    (hn : n ≤ mid.length) (h : addr = pre.length) :
    readBytes (pre ++ (mid ++ rest)) n addr = some (mid.take n) := by
  subst h
  show (if _ then _ else _) = _
  rw [if_pos (by simp only [List.length_append]; omega), List.drop_left,
    List.take_append_of_le_length hn]

/-- A word stored over the word laid out after `pre` takes its place. -/
theorem write32_le32 (pre : List UInt8) (w v : UInt32) (rest : List UInt8) {addr : Int}
    (h : addr = pre.length) :
    write32 (pre ++ (le32 w ++ rest)) v addr = some (pre ++ (le32 v ++ rest)) := by
  subst h
  have hdrop : (pre ++ (le32 w ++ rest)).drop (pre.length + 4) = rest := by
    rw [← List.append_assoc]
    exact List.drop_left' (by rw [List.length_append, le32_length])
  show (if _ then _ else _) = _
  rw [if_pos (by simp only [List.length_append, le32_length]; omega), List.take_left, hdrop]

/-! ## Reads of an image in a larger one -/

theorem word32_append {l : List UInt8} {w : UInt32} (h : word32 l = some w) (rest : List UInt8) :
    word32 (l ++ rest) = some w := by
  match l, h with
  | _ :: _ :: _ :: _ :: _, h => exact h

theorem read32_mono {img : List UInt8} {addr : Int} {w : UInt32} (h : read32 img addr = some w)
    (rest : List UInt8) : read32 (img ++ rest) addr = some w := by
  cases addr with
  | ofNat a =>
    show word32 ((img ++ rest).drop a) = some w
    rw [List.drop_append]
    exact word32_append h _
  | negSucc a => cases h

theorem readBytes_mono {img bytes : List UInt8} {n : Nat} {addr : Int}
    (h : readBytes img n addr = some bytes) (rest : List UInt8) :
    readBytes (img ++ rest) n addr = some bytes := by
  cases addr with
  | ofNat a =>
    simp only [readBytes, Option.ite_none_right_eq_some, Option.some.injEq] at h ⊢
    obtain ⟨hin, rfl⟩ := h
    have hlen : n ≤ (img.drop a).length := by rw [List.length_drop]; omega
    refine ⟨by rw [List.length_append]; omega, ?_⟩
    rw [List.drop_append, List.take_append_of_le_length hlen]
  | negSucc a => cases h

end Lichee.Base

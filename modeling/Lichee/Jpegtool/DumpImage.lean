import Lichee.Base.Loop
import Lichee.Base.Memory

/- The pixels of a decoded picture (dumpimage.c). `buf24_to16` turns three bytes a pixel into two
   and writes them over the bytes it reads from. After `k` pixels the buffer is what they were
   turned into and, from byte `2 * k` on, the picture as it was, so the read at byte `3 * k` finds
   nothing that was written (`buf24to16_inPlace`). -/
namespace Lichee.Jpegtool
open Base

/-! ## The functions -/

def rgb24ToRgb16 (r g b : UInt8) : UInt16 :=
  let b16 := b.toNat * 0x1f / 0xff
  let g16 := g.toNat * 0x3f / 0xff
  let r16 := r.toNat * 0x1f / 0xff
  .ofNat ((r16 <<< 11) ||| (g16 <<< 5) ||| b16)

/-- The variables of the loop; `buf16` is the address that is written next. -/
structure Cursor where
  buf : List UInt8
  buf16 : Int
  i : Int32
  deriving DecidableEq, Repr

/-- One turn of the loop. -/
def convertStep (s : Cursor) : Except Fault Cursor := do
  let r ← load8 s.buf s.i.toInt
  let g ← load8 s.buf (s.i + 1).toInt
  let b ← load8 s.buf (s.i + 2).toInt
  let buf ← store16 s.buf s.buf16 (rgb24ToRgb16 r g b)
  .ok ⟨buf, s.buf16 + 2, s.i + 3⟩

/-- What the buffer holds at the end. The loop counts up to `size`, so that many turns do. -/
def buf24to16 (buf : List UInt8) (w h : Int32) : Option (Except Fault (List UInt8)) :=
  let size := w * h * 3
  (whileLoop (fun s => decide (s.i < size)) convertStep size.toInt.toNat ⟨buf, 0, 0⟩).map
    (·.map Cursor.buf)

/-! ## The pixels, one by one -/

/-- Every pixel of a picture, into a buffer of its own. -/
def convert : List UInt8 → List UInt16
  | r :: g :: b :: rest => rgb24ToRgb16 r g b :: convert rest
  | _ => []

/-- A value as it stands in memory. -/
def le16 (v : UInt16) : List UInt8 := [v.toUInt8, (v >>> 8).toUInt8]

/-- The value of the pixel whose bytes are the three at `3 * k`. -/
def pixelAt (image : List UInt8) (k : Nat) : UInt16 :=
  rgb24ToRgb16 (byteAt image (3 * k)) (byteAt image (3 * k + 1)) (byteAt image (3 * k + 2))

theorem convert_getElem? {image : List UInt8} {k : Nat} (h : 3 * k + 3 ≤ image.length) :
    (convert image)[k]? = some (pixelAt image k) := by
  induction k generalizing image with
  | zero =>
    match image, h with
    | r :: g :: b :: rest, _ => rfl
  | succ k ih =>
    match image, h with
    | r :: g :: b :: rest, h =>
      have hrest : 3 * k + 3 ≤ rest.length := by
        simp only [List.length_cons] at h
        omega
      rw [convert, List.getElem?_cons_succ, ih hrest]
      rfl

theorem convert_length (image : List UInt8) : (convert image).length = image.length / 3 := by
  fun_induction convert image with
  | case1 r g b rest ih =>
    simp only [List.length_cons, ih]
    omega
  | case2 l h =>
    match l, h with
    | [], _ => rfl
    | [_], _ => simp
    | [_, _], _ => simp
    | r :: g :: b :: rest, h => exact absurd rfl (h r g b rest)

theorem flatMap_le16_length (vs : List UInt16) : (vs.flatMap le16).length = 2 * vs.length := by
  induction vs with
  | nil => rfl
  | cons v vs ih =>
    rw [List.flatMap_cons, List.length_append, ih, List.length_cons]
    simp only [le16, List.length_cons, List.length_nil]
    omega

/-! ## In place -/

section InPlace
variable {image : List UInt8} {k : Nat}

/-- The variables after `k` pixels. -/
def cursorAt (image : List UInt8) (k : Nat) : Cursor :=
  ⟨((convert image).take k).flatMap le16 ++ image.drop (2 * k), (2 * k : Nat), .ofNat (3 * k)⟩

theorem written_length (h : 3 * k ≤ image.length) :
    (((convert image).take k).flatMap le16).length = 2 * k := by
  rw [flatMap_le16_length, List.length_take, convert_length]
  omega

/-- What stands at `3 * k` and behind is the picture's. -/
theorem cursorAt_load {a : Nat} (hk : 3 * k ≤ a) (ha : a < image.length) (hint : a < 2 ^ 31) :
    load8 (cursorAt image k).buf (Int32.ofNat a).toInt = .ok (byteAt image a) := by
  have hlen := written_length (show 3 * k ≤ image.length by omega)
  have hin : a < (cursorAt image k).buf.length := by
    rw [cursorAt, List.length_append, hlen, List.length_drop]
    omega
  have hsame : byteAt (cursorAt image k).buf a = byteAt image a := by
    rw [byteAt, byteAt, cursorAt, List.getD_eq_getElem?_getD, List.getD_eq_getElem?_getD,
      List.getElem?_append_right (by omega), hlen, List.getElem?_drop,
      show 2 * k + (a - 2 * k) = a by omega]
  rw [Int32.toInt_ofNat_of_lt hint, load8_eq hin, hsame]

/-- One turn converts one pixel more. -/
theorem convertStep_cursorAt (h : 3 * k + 3 ≤ image.length) (hint : 3 * k + 3 < 2 ^ 31) :
    convertStep (cursorAt image k) = .ok (cursorAt image (k + 1)) := by
  have hr : load8 (cursorAt image k).buf (cursorAt image k).i.toInt =
      .ok (byteAt image (3 * k)) :=
    cursorAt_load le_rfl (by omega) (by omega)
  have hg : load8 (cursorAt image k).buf ((cursorAt image k).i + 1).toInt =
      .ok (byteAt image (3 * k + 1)) := by
    rw [show (cursorAt image k).i + 1 = .ofNat (3 * k + 1) from (Int32.ofNat_add ..).symm]
    exact cursorAt_load (by omega) (by omega) (by omega)
  have hb : load8 (cursorAt image k).buf ((cursorAt image k).i + 2).toInt =
      .ok (byteAt image (3 * k + 2)) := by
    rw [show (cursorAt image k).i + 2 = .ofNat (3 * k + 2) from (Int32.ofNat_add ..).symm]
    exact cursorAt_load (by omega) (by omega) (by omega)
  -- the write takes the place of the two bytes behind what is written
  have hdrop : image.drop (2 * k) = image[2 * k] :: image[2 * k + 1] ::
      image.drop (2 * (k + 1)) := by
    rw [List.drop_eq_getElem_cons (by omega), List.drop_eq_getElem_cons (by omega)]
    rfl
  have htake : ((convert image).take (k + 1)).flatMap le16 =
      ((convert image).take k).flatMap le16 ++ le16 (pixelAt image k) := by
    rw [List.take_add_one, convert_getElem? h, List.flatMap_append]
    rfl
  have hstore : store16 (cursorAt image k).buf (cursorAt image k).buf16 (pixelAt image k) =
      .ok (cursorAt image (k + 1)).buf := by
    have happ := store16_append (((convert image).take k).flatMap le16) image[2 * k]
      image[2 * k + 1] (image.drop (2 * (k + 1))) (pixelAt image k)
    rw [← hdrop, written_length (by omega)] at happ
    rw [cursorAt, cursorAt, htake, List.append_assoc]
    exact happ
  have hnext : (cursorAt image k).i + 3 = (cursorAt image (k + 1)).i :=
    (Int32.ofNat_add ..).symm
  have hnext16 : (cursorAt image k).buf16 + 2 = (cursorAt image (k + 1)).buf16 := by
    show ((2 * k : Nat) : Int) + 2 = (2 * (k + 1) : Nat)
    omega
  rw [convertStep, hr, ok_bind, hg, ok_bind, hb, ok_bind, ← pixelAt, hstore, ok_bind, hnext,
    hnext16]

end InPlace

/-- A picture is converted in place as it is into another buffer, and the bytes behind it stay. -/
theorem buf24to16_inPlace {image : List UInt8} {w h : Nat} (hlen : image.length = w * h * 3)
    (hint : w * h * 3 < 2 ^ 31) : buf24to16 image (.ofNat w) (.ofNat h) =
      some (.ok ((convert image).flatMap le16 ++ image.drop (2 * (w * h)))) := by
  have hsize : Int32.ofNat w * Int32.ofNat h * 3 = .ofNat (w * h * 3) := by
    rw [Int32.ofNat_mul, Int32.ofNat_mul]
    rfl
  have hguard : ∀ k ≤ w * h, Int32.ofNat (3 * k) < .ofNat (w * h * 3) ↔ k < w * h := by
    intro k hk
    rw [Int32.lt_iff_toInt_lt, Int32.toInt_ofNat_of_lt (by omega), Int32.toInt_ofNat_of_lt hint]
    omega
  have hloop : whileLoop (fun s => decide (s.i < .ofNat (w * h * 3))) convertStep (w * h)
      (cursorAt image 0) = some (.ok (cursorAt image (w * h))) := by
    refine whileLoop_count (cursorAt image) ?_ ?_
    · exact decide_eq_false fun hlt => absurd ((hguard _ le_rfl).mp hlt) (lt_irrefl _)
    · intro k hk
      exact ⟨decide_eq_true ((hguard k hk.le).mpr hk), convertStep_cursorAt (by omega) (by omega)⟩
  have hstart : cursorAt image 0 = ⟨image, 0, 0⟩ := rfl
  have hend : (cursorAt image (w * h)).buf =
      (convert image).flatMap le16 ++ image.drop (2 * (w * h)) := by
    rw [cursorAt, List.take_of_length_le (by rw [convert_length]; omega)]
  simp only [buf24to16, hsize, Int32.toInt_ofNat_of_lt hint, Int.toNat_natCast]
  rw [← hstart, whileLoop_mono hloop (m := w * h * 3) (by omega), ← hend]
  rfl

/-- Two pixels, the second written over its own first byte. -/
theorem buf24to16_inPlace_two : buf24to16 [0xff, 0, 0, 0, 0xff, 0xff] (.ofNat 2) (.ofNat 1) =
    some (.ok ((convert [0xff, 0, 0, 0, 0xff, 0xff]).flatMap le16 ++ [0xff, 0xff])) :=
  buf24to16_inPlace (w := 2) (h := 1) rfl (by decide)

end Lichee.Jpegtool

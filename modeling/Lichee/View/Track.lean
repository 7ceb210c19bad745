import Mathlib.Data.List.Chain
import Mathlib.Data.List.Range
import Mathlib.Order.Interval.Set.UnorderedInterval
import Lichee.Base.Loop
import Lichee.Base.Nearest
import Lichee.View.Touch

/- The touch track as it is painted (tp_track.c). `tp_track_draw_line` goes one pixel at a time
   along the axis the line is longer on, and keeps the error of the other coordinate in `eps`;
   after `k` iterations that coordinate has moved to the integer nearest to where the line is
   (`lineAt`), and `paints_iff` gives the pixels in closed form. The end point itself is never
   painted.

   `tp_track_draw` refuses a point off the screen before it draws, but takes the column and the
   row one past it. `track_on_surface_iff`: what is painted stays on the screen just when no
   stroke goes along those. -/
namespace Lichee.View
open Base

/-! ## The drawing -/

/-- A pixel that is written. -/
structure Pixel where
  x : Int
  y : Int
  color : UInt32
  deriving DecidableEq, Repr

/-- The byte of `buffer` that `tp_track_draw_pixel` stores the four bytes of a pixel at. -/
def pixelOffset (cfg : TouchConfig) (p : Pixel) : Int := cfg.screenWidth * p.y * 4 + p.x * 4

/-- The variables of a loop of `tp_track_draw_line`: the coordinate the loop counts, the one that
follows, the accumulated error, and the pixels painted. -/
structure LineState where
  major : Int
  minor : Int
  eps : Int
  drawn : List Pixel
  deriving DecidableEq, Repr

/-- `((d > 0) << 1) - 1` -/
def increment (d : Int) : Int := (if d > 0 then 1 else 0) * 2 - 1

/-- The body of the two loops: `u` and `v` are the increments, `d` and `e` the lengths along the
two axes. -/
def lineStep (pixel : Int → Int → Pixel) (u v d e : Int) (s : LineState) :
    Except Empty LineState :=
  let drawn := s.drawn ++ [pixel s.major s.minor]
  let eps := s.eps + e
  if eps * 2 ≥ d then .ok ⟨s.major + u, s.minor + v, eps - d, drawn⟩
  else .ok ⟨s.major + u, s.minor, eps, drawn⟩

/-- A loop from `s` to the coordinate `stop`, cut off after `n` iterations. -/
def lineLoop (pixel : Int → Int → Pixel) (u v d e stop : Int) (n : Nat) (s : LineState) :
    Option (List Pixel) :=
  ((whileLoop (fun s => s.major != stop) (lineStep pixel u v d e) n s).bind
    Except.toOption).map (·.drawn)

/-- `tp_track_draw_line`, with its loop cut off after `n` iterations: the pixels in the order they
are painted. -/
def tpTrackDrawLine (n : Nat) (x1 y1 x2 y2 : Int) (color : UInt32) : Option (List Pixel) :=
  let dx := x2 - x1
  let dy := y2 - y1
  let ux := increment dx
  let uy := increment dy
  if |dx| > |dy| then lineLoop (⟨·, ·, color⟩) ux uy |dx| |dy| x2 n ⟨x1, y1, 0, []⟩
  else lineLoop (fun y x => ⟨x, y, color⟩) uy ux |dy| |dx| y2 n ⟨y1, x1, 0, []⟩

/-- The line is drawn, and these are its pixels. -/
def Paints (x1 y1 x2 y2 : Int) (color : UInt32) (ps : List Pixel) : Prop :=
  ∃ n, tpTrackDrawLine n x1 y1 x2 y2 color = some ps

/-! ## What a line should be -/

/-- Neighbours of a point: the eight around it. -/
def Adjacent (p q : Int × Int) : Prop := p ≠ q ∧ |p.1 - q.1| ≤ 1 ∧ |p.2 - q.2| ≤ 1

def Pixel.pos (p : Pixel) : Int × Int := (p.x, p.y)

/-- The pixels of a line from `(x1, y1)` to `(x2, y2)`, without its end. -/
structure LineDrawn (x1 y1 x2 y2 : Int) (color : UInt32) (ps : List Pixel) : Prop where
  count : (ps.length : Int) = max |x2 - x1| |y2 - y1|
  colored : ∀ p ∈ ps, p.color = color
  first : (x1, y1) ≠ (x2, y2) → ps.head? = some ⟨x1, y1, color⟩
  last : ∀ p ∈ ps, p.pos ≠ (x2, y2)
  adjacent : List.IsChain Adjacent (ps.map Pixel.pos ++ [(x2, y2)])
  box : ∀ p ∈ ps, p.x ∈ Set.uIcc x1 x2 ∧ p.y ∈ Set.uIcc y1 y2
  /-- within half a pixel of the segment, along the axis it is shorter on -/
  near : ∀ p ∈ ps,
    if |x2 - x1| > |y2 - y1| then
      |(p.y : ℚ) - (y1 + (y2 - y1) * ((p.x - x1) / (x2 - x1)))| ≤ 1 / 2
    else |(p.x : ℚ) - (x1 + (x2 - x1) * ((p.y - y1) / (y2 - y1)))| ≤ 1 / 2

/-! ## The loop -/

theorem increment_eq (d : Int) : increment d = 1 ∨ increment d = -1 := by
  rw [increment]
  split <;> omega

theorem increment_mul_abs (d : Int) : increment d * |d| = d := by
  rw [increment]
  split
  · rw [abs_of_pos (by assumption)]
    omega
  · rw [abs_of_nonpos (by omega)]
    omega

section Axis
variable {pixel : Int → Int → Pixel} {u v d e a b : Int} {n : Nat}

/-- The point of a line after `k` iterations: its following coordinate is the one nearest to the
line. -/
def pointAt (u v d e a b : Int) (k : Nat) : Int × Int :=
  (a + u * k, b + v * nearest (k * e) d)

/-- The points of a line `n` long. -/
def axisPoints (u v d e a b : Int) (n : Nat) : List (Int × Int) :=
  (List.range n).map (pointAt u v d e a b)

/-- The loop after `k` iterations. -/
def lineAt (pixel : Int → Int → Pixel) (u v d e a b : Int) (k : Nat) : LineState :=
  ⟨(pointAt u v d e a b k).1, (pointAt u v d e a b k).2, roundError (k * e) d,
    (axisPoints u v d e a b k).map fun p => pixel p.1 p.2⟩

/-- An iteration adds the error of one more step, and rounds it off. -/
theorem lineStep_lineAt (hd : 0 < d) (he : 0 ≤ e) (hed : e ≤ d) (k : Nat) :
    lineStep pixel u v d e (lineAt pixel u v d e a b k) =
      .ok (lineAt pixel u v d e a b (k + 1)) := by
  have hnext : ((k + 1 : Nat) : Int) * e = k * e + e := by
    push_cast
    ring
  have hmajor : a + u * ((k + 1 : Nat) : Int) = a + u * k + u := by
    push_cast
    ring
  have hdrawn : (axisPoints u v d e a b (k + 1)).map (fun p => pixel p.1 p.2) =
      (axisPoints u v d e a b k).map (fun p => pixel p.1 p.2) ++
        [pixel (pointAt u v d e a b k).1 (pointAt u v d e a b k).2] := by
    rw [axisPoints, List.range_succ, List.map_append, List.map_append]
    rfl
  have hminor : b + v * nearest (k * e) d + v = b + v * (nearest (k * e) d + 1) := by ring
  rw [lineStep, lineAt, lineAt, hdrawn]
  simp only [pointAt, hmajor, hnext, nearest_add _ hd he hed, roundError_add _ hd he hed,
    mul_comm _ (2 : Int), ge_iff_le]
  split
  · rw [hminor]
  · rfl

/-- **The loop ends after as many iterations as the line is long.** -/
theorem lineLoop_ends (hu : u = 1 ∨ u = -1) (he : 0 ≤ e) (hen : e ≤ n) :
    lineLoop pixel u v n e (a + u * n) n ⟨a, b, 0, []⟩ =
      some ((axisPoints u v n e a b n).map fun p => pixel p.1 p.2) := by
  have hstart : lineAt pixel u v n e a b 0 = ⟨a, b, 0, []⟩ := by
    have hzero : nearest 0 (n : Int) = 0 := nearest_zero (Nat.cast_nonneg n)
    simp [lineAt, pointAt, axisPoints, roundError, hzero]
  have hrun : whileLoop (fun s => s.major != a + u * n) (lineStep pixel u v n e) n
      (lineAt pixel u v n e a b 0) = some (.ok (lineAt pixel u v n e a b n)) := by
    apply whileLoop_count (lineAt pixel u v n e a b)
    · simp [lineAt, pointAt]
    · intro k hk
      refine ⟨?_, lineStep_lineAt (by omega) he hen k⟩
      have hne : a + u * k ≠ a + u * n := by
        rcases hu with rfl | rfl <;> omega
      simpa [lineAt, pointAt] using hne
  rw [lineLoop, ← hstart, hrun]
  rfl

/-! ## The points of a line -/

theorem pointAt_zero (u v e a b : Int) (hd : 0 ≤ d) : pointAt u v d e a b 0 = (a, b) := by
  simp [pointAt, nearest_zero hd]

/-- After all its iterations a line has arrived. -/
theorem pointAt_end (u v a b : Int) (he : 0 ≤ e) (hen : e ≤ n) :
    pointAt u v n e a b n = (a + u * n, b + v * e) := by
  rcases Nat.eq_zero_or_pos n with rfl | hn
  · obtain rfl : e = 0 := by omega
    rfl
  · rw [pointAt, mul_comm (n : Int) e, nearest_mul e (by omega)]

/-- One iteration goes to a neighbour. -/
theorem pointAt_adjacent (hu : u = 1 ∨ u = -1) (hv : v = 1 ∨ v = -1) (hd : 0 < d) (he : 0 ≤ e)
    (hed : e ≤ d) (k : Nat) :
    Adjacent (pointAt u v d e a b k) (pointAt u v d e a b (k + 1)) := by
  have hnext : ((k + 1 : Nat) : Int) * e = k * e + e := by
    push_cast
    ring
  have hmajor : a + u * ((k + 1 : Nat) : Int) = a + u * k + u := by
    push_cast
    ring
  have hstep := nearest_add (k * e) hd he hed
  rw [Adjacent, pointAt, pointAt, hnext, hmajor, hstep]
  refine ⟨fun heq => ?_, ?_, ?_⟩
  · have := (Prod.mk.inj heq).1
    omega
  · show |a + u * k - (a + u * k + u)| ≤ 1
    rw [abs_le]
    omega
  · rw [abs_le]
    split
    · rcases hv with rfl | rfl <;> omega
    · omega

/-- The following coordinate stays between its ends. -/
theorem nearest_within (he : 0 ≤ e) {k : Nat} (hk : k < n) :
    0 ≤ nearest (k * e) n ∧ nearest (k * e) n ≤ e := by
  apply nearest_between (by omega)
  · rw [zero_mul]
    exact Int.mul_nonneg (by omega) he
  · rw [mul_comm]
    exact Int.mul_le_mul_of_nonneg_left (by omega) he

theorem pointAt_box (hu : u = 1 ∨ u = -1) (hv : v = 1 ∨ v = -1) (he : 0 ≤ e) {k : Nat}
    (hk : k < n) : (pointAt u v n e a b k).1 ∈ Set.uIcc a (a + u * n) ∧
      (pointAt u v n e a b k).2 ∈ Set.uIcc b (b + v * e) := by
  obtain ⟨hlow, hhigh⟩ := nearest_within he hk
  rw [Set.mem_uIcc, Set.mem_uIcc, pointAt]
  refine ⟨?_, ?_⟩
  · rcases hu with rfl | rfl <;> omega
  · rcases hv with rfl | rfl <;> omega

/-- The following coordinate is within one half of the line. -/
theorem pointAt_near (hu : u = 1 ∨ u = -1) (hv : v = 1 ∨ v = -1) {k : Nat} (hk : k < n) :
    |((pointAt u v n e a b k).2 : ℚ) - (b + (((b + v * e : Int) : ℚ) - b) *
      (((pointAt u v n e a b k).1 - a) / (((a + u * n : Int) : ℚ) - a)))| ≤ 1 / 2 := by
  have hn : (n : ℚ) ≠ 0 := by exact_mod_cast (show n ≠ 0 by omega)
  have hu0 : (u : ℚ) ≠ 0 := by
    rcases hu with rfl | rfl <;> norm_num
  have habs : |(v : ℚ)| = 1 := by
    rcases hv with rfl | rfl <;> norm_num
  have hline : ((pointAt u v n e a b k).2 : ℚ) - (b + (((b + v * e : Int) : ℚ) - b) *
      (((pointAt u v n e a b k).1 - a) / (((a + u * n : Int) : ℚ) - a))) =
        -(v * (((k * e : Int) : ℚ) / ((n : Int) : ℚ) - nearest (k * e) n)) := by
    simp only [pointAt]
    push_cast
    field_simp
    ring
  rw [hline, abs_neg, abs_mul, habs, one_mul]
  exact abs_sub_nearest (k * e) (show 0 < (n : Int) by omega)

/-- What is painted of a line, by its counted and following coordinates. -/
structure AxisLine (a b a' b' : Int) (ps : List (Int × Int)) : Prop where
  count : (ps.length : Int) = |a' - a|
  first : a ≠ a' → ps.head? = some (a, b)
  last : ∀ p ∈ ps, p.1 ≠ a'
  adjacent : List.IsChain Adjacent (ps ++ [(a', b')])
  box : ∀ p ∈ ps, p.1 ∈ Set.uIcc a a' ∧ p.2 ∈ Set.uIcc b b'
  near : ∀ p ∈ ps, |(p.2 : ℚ) - (b + (b' - b) * ((p.1 - a) / (a' - a)))| ≤ 1 / 2

/-- **The points of the loop are those of the line.** -/
theorem axisPoints_line (hu : u = 1 ∨ u = -1) (hv : v = 1 ∨ v = -1) (he : 0 ≤ e) (hen : e ≤ n) :
    AxisLine a b (a + u * n) (b + v * e) (axisPoints u v n e a b n) where
  count := by
    rw [axisPoints, List.length_map, List.length_range, add_sub_cancel_left]
    rcases hu with rfl | rfl <;> simp
  first := by
    intro hne
    obtain ⟨m, rfl⟩ : ∃ m, n = m + 1 := Nat.exists_eq_succ_of_ne_zero (by
      rintro rfl
      simp at hne)
    rw [axisPoints, List.range_succ_eq_map, List.map_cons, List.head?_cons,
      pointAt_zero _ _ _ _ _ (by omega)]
  last := by
    intro p hp
    obtain ⟨k, hk, rfl⟩ := List.mem_map.mp hp
    rw [List.mem_range] at hk
    rw [pointAt]
    rcases hu with rfl | rfl <;> omega
  adjacent := by
    -- with the end point these are `n + 1` points of one formula
    have hall : axisPoints u v n e a b n ++ [(a + u * n, b + v * e)] =
        (List.range (n + 1)).map (pointAt u v n e a b) := by
      rw [List.range_succ, List.map_append, List.map_singleton, pointAt_end u v a b he hen,
        axisPoints]
    rw [hall, List.isChain_map, List.isChain_range_succ]
    intro k hk
    exact pointAt_adjacent hu hv (by omega) he hen k
  box := by
    intro p hp
    obtain ⟨k, hk, rfl⟩ := List.mem_map.mp hp
    exact pointAt_box hu hv he (List.mem_range.mp hk)
  near := by
    intro p hp
    obtain ⟨k, hk, rfl⟩ := List.mem_map.mp hp
    exact pointAt_near hu hv (List.mem_range.mp hk)

end Axis

/-! ## Lines -/

section Line
variable {x1 y1 x2 y2 : Int} {color : UInt32} {ps qs : List Pixel} {points : List (Int × Int)}

theorem adjacent_swap (p q : Int × Int) : Adjacent p.swap q.swap ↔ Adjacent p q := by
  rw [Adjacent, Adjacent, Prod.swap_inj.ne, Prod.fst_swap, Prod.fst_swap, Prod.snd_swap,
    Prod.snd_swap, and_comm (a := |p.2 - q.2| ≤ 1)]

/-- A line that is longer along the rows. -/
theorem lineDrawn_of_x (h : AxisLine x1 y1 x2 y2 points) (hlong : |x2 - x1| > |y2 - y1|) :
    LineDrawn x1 y1 x2 y2 color (points.map fun p => ⟨p.1, p.2, color⟩) where
  count := by
    rw [List.length_map, h.count, max_eq_left hlong.le]
  colored := by
    intro p hp
    obtain ⟨q, -, rfl⟩ := List.mem_map.mp hp
    rfl
  first := by
    intro _
    -- the longer side is not 0
    have hne : x1 ≠ x2 := by
      rintro rfl
      rw [sub_self, abs_zero] at hlong
      exact absurd hlong (not_lt.mpr (abs_nonneg _))
    rw [List.head?_map, h.first hne]
    rfl
  last := by
    intro p hp heq
    obtain ⟨q, hq, rfl⟩ := List.mem_map.mp hp
    exact h.last q hq (Prod.mk.inj heq).1
  adjacent := by
    rw [List.map_map]
    show List.IsChain Adjacent (points.map id ++ _)
    rw [List.map_id]
    exact h.adjacent
  box := by
    intro p hp
    obtain ⟨q, hq, rfl⟩ := List.mem_map.mp hp
    exact h.box q hq
  near := by
    intro p hp
    obtain ⟨q, hq, rfl⟩ := List.mem_map.mp hp
    rw [if_pos hlong]
    exact h.near q hq

/-- A line that is as long along the columns. -/
theorem lineDrawn_of_y (h : AxisLine y1 x1 y2 x2 points) (hlong : ¬ |x2 - x1| > |y2 - y1|) :
    LineDrawn x1 y1 x2 y2 color (points.map fun p => ⟨p.2, p.1, color⟩) where
  count := by
    rw [List.length_map, h.count, max_eq_right (not_lt.mp hlong)]
  colored := by
    intro p hp
    obtain ⟨q, -, rfl⟩ := List.mem_map.mp hp
    rfl
  first := by
    intro hdiff
    have hne : y1 ≠ y2 := by
      rintro rfl
      rw [sub_self, abs_zero, gt_iff_lt, abs_pos, not_not] at hlong
      exact hdiff (by rw [sub_eq_zero.mp hlong])
    rw [List.head?_map, h.first hne]
    rfl
  last := by
    intro p hp heq
    obtain ⟨q, hq, rfl⟩ := List.mem_map.mp hp
    exact h.last q hq (Prod.mk.inj heq).2
  adjacent := by
    have hswap : (points.map fun p => Pixel.pos ⟨p.2, p.1, color⟩) ++ [(x2, y2)] =
        (points ++ [(y2, x2)]).map Prod.swap := by
      rw [List.map_append]
      rfl
    rw [List.map_map]
    show List.IsChain Adjacent ((points.map fun p => Pixel.pos ⟨p.2, p.1, color⟩) ++ _)
    rw [hswap, List.isChain_map]
    exact h.adjacent.imp fun p q hpq => (adjacent_swap p q).mpr hpq
  box := by
    intro p hp
    obtain ⟨q, hq, rfl⟩ := List.mem_map.mp hp
    exact (h.box q hq).symm
  near := by
    intro p hp
    obtain ⟨q, hq, rfl⟩ := List.mem_map.mp hp
    rw [if_neg hlong]
    exact h.near q hq

/-- The pixels of a line. -/
def linePixels (x1 y1 x2 y2 : Int) (color : UInt32) : List Pixel :=
  if |x2 - x1| > |y2 - y1| then
    (axisPoints (increment (x2 - x1)) (increment (y2 - y1)) |x2 - x1| |y2 - y1| x1 y1
      (x2 - x1).natAbs).map fun p => ⟨p.1, p.2, color⟩
  else
    (axisPoints (increment (y2 - y1)) (increment (x2 - x1)) |y2 - y1| |x2 - x1| y1 x1
      (y2 - y1).natAbs).map fun p => ⟨p.2, p.1, color⟩

theorem lineLoop_unique {pixel : Int → Int → Pixel} {u v d e stop : Int} {n m : Nat}
    {s : LineState} (h : lineLoop pixel u v d e stop n s = some ps)
    (h' : lineLoop pixel u v d e stop m s = some qs) : ps = qs := by
  simp only [lineLoop, Option.map_eq_some_iff, Option.bind_eq_some_iff] at h h'
  obtain ⟨t, ⟨r, hr, ht⟩, rfl⟩ := h
  obtain ⟨t', ⟨r', hr', ht'⟩, rfl⟩ := h'
  rw [whileLoop_unique hr hr', ht'] at ht
  rw [Option.some.inj ht]

/-- A line along the first axis arrives at its end. -/
theorem lineLoop_line (pixel : Int → Int → Pixel) {d e : Int} (a b : Int) (h : |e| ≤ |d|) :
    lineLoop pixel (increment d) (increment e) |d| |e| (a + d) d.natAbs ⟨a, b, 0, []⟩ =
      some ((axisPoints (increment d) (increment e) |d| |e| a b d.natAbs).map
        fun p => pixel p.1 p.2) := by
  have hd : |d| = (d.natAbs : Int) := Int.abs_eq_natAbs d
  have hstop : a + d = a + increment d * d.natAbs := by rw [← hd, increment_mul_abs]
  rw [hd] at h ⊢
  rw [hstop]
  exact lineLoop_ends (increment_eq d) (abs_nonneg e) h

/-- **The pixels painted.** -/
theorem paints_iff : Paints x1 y1 x2 y2 color ps ↔ ps = linePixels x1 y1 x2 y2 color := by
  have hx : x1 + (x2 - x1) = x2 := by omega
  have hy : y1 + (y2 - y1) = y2 := by omega
  have hdraws : ∃ n, tpTrackDrawLine n x1 y1 x2 y2 color =
      some (linePixels x1 y1 x2 y2 color) := by
    simp only [tpTrackDrawLine, linePixels]
    by_cases hlong : |x2 - x1| > |y2 - y1|
    · simp only [if_pos hlong]
      have hline := lineLoop_line (⟨·, ·, color⟩) x1 y1 hlong.le
      rw [hx] at hline
      exact ⟨_, hline⟩
    · simp only [if_neg hlong]
      have hline := lineLoop_line (fun y x => ⟨x, y, color⟩) y1 x1 (not_lt.mp hlong)
      rw [hy] at hline
      exact ⟨_, hline⟩
  refine ⟨?_, ?_⟩
  · rintro ⟨n, hn⟩
    obtain ⟨m, hm⟩ := hdraws
    simp only [tpTrackDrawLine] at hn hm
    split at hn
    · next hlong =>
      rw [if_pos hlong] at hm
      exact lineLoop_unique hn hm
    · next hlong =>
      rw [if_neg hlong] at hm
      exact lineLoop_unique hn hm
  · rintro rfl
    exact hdraws

theorem linePixels_drawn (x1 y1 x2 y2 : Int) (color : UInt32) :
    LineDrawn x1 y1 x2 y2 color (linePixels x1 y1 x2 y2 color) := by
  have axis : ∀ {d e : Int} (a b : Int), |e| ≤ |d| → AxisLine a b (a + d) (b + e)
      (axisPoints (increment d) (increment e) |d| |e| a b d.natAbs) := by
    intro d e a b h
    have hline := axisPoints_line (n := d.natAbs) (a := a) (b := b) (increment_eq d)
      (increment_eq e) (abs_nonneg e) (by rwa [← Int.abs_eq_natAbs])
    rwa [← Int.abs_eq_natAbs, increment_mul_abs, increment_mul_abs] at hline
  have hx : x1 + (x2 - x1) = x2 := by omega
  have hy : y1 + (y2 - y1) = y2 := by omega
  rw [linePixels]
  split
  · next hlong =>
    have hline := axis x1 y1 hlong.le
    rw [hx, hy] at hline
    exact lineDrawn_of_x hline hlong
  · next hlong =>
    have hline := axis y1 x1 (not_lt.mp hlong)
    rw [hx, hy] at hline
    exact lineDrawn_of_y hline hlong

end Line

/-- **`tp_track_draw_line` draws the line, whatever its slope and direction.** (On a screen the
coordinates, and twice the errors, are far inside an `int`.) -/
theorem track_line_drawn (x1 y1 x2 y2 : Int) (color : UInt32) :
    ∃ ps, (∀ qs, Paints x1 y1 x2 y2 color qs ↔ qs = ps) ∧ LineDrawn x1 y1 x2 y2 color ps :=
  ⟨linePixels x1 y1 x2 y2 color, fun _ => paints_iff, linePixels_drawn x1 y1 x2 y2 color⟩

/-! ## The surface -/

/-- A point handed to `tp_track_draw`. -/
structure TrackPoint where
  x : Int
  y : Int
  press : Int
  deriving DecidableEq, Repr

def trackDraw (cfg : TouchConfig) (s : Touch) (c : TrackPoint) : Touch × List Action :=
  tpTrackDraw cfg s c.x c.y c.press

/-- The track after some points. -/
def trackRun (cfg : TouchConfig) (points : List TrackPoint) : Touch :=
  points.foldl (fun s c => (trackDraw cfg s c).1) touchInit

/-- The pixels written by what the track does. -/
def Writes (color : UInt32) : Action → Pixel → Prop
  | .pixel x y, p => p = ⟨x, y, color⟩
  | .line x1 y1 x2 y2, p => ∃ ps, Paints x1 y1 x2 y2 color ps ∧ p ∈ ps
  | _, _ => False

/-- The pixel is on the screen, and its four bytes are in the buffer. -/
structure OnSurface (cfg : TouchConfig) (p : Pixel) : Prop where
  x : 0 ≤ p.x ∧ p.x < cfg.screenWidth
  y : 0 ≤ p.y ∧ p.y < cfg.screenHeight
  bytes : 0 ≤ pixelOffset cfg p ∧
    pixelOffset cfg p + 4 ≤ cfg.screenWidth * cfg.screenHeight * 4

/-- Every pixel written for a point is on the surface. -/
def WritesInside (cfg : TouchConfig) (color : UInt32) (s : Touch) (c : TrackPoint) : Prop :=
  ∀ act ∈ (trackDraw cfg s c).2, ∀ p, Writes color act p → OnSurface cfg p

/-- A line that starts before the last column and row, and if it goes to the row one past them
is not too flat, and to the column one past them not too steep. -/
def LineClear (cfg : TouchConfig) (x1 y1 x2 y2 : Int) : Prop :=
  x1 < cfg.screenWidth ∧ y1 < cfg.screenHeight ∧
    (y2 = cfg.screenHeight → |x2 - x1| < 2 * |y2 - y1|) ∧
      (x2 = cfg.screenWidth → |y2 - y1| < 2 * |x2 - x1|)

/-- The point is refused, or it is a pixel of the screen, or the line to it is clear. -/
def PointClear (cfg : TouchConfig) (s : Touch) (c : TrackPoint) : Prop :=
  OnScreen cfg c.x c.y →
    if cfg.drawType then c.x < cfg.screenWidth ∧ c.y < cfg.screenHeight
    else (c.press = -1 ∨ c.press = 1) → s.Kept → (s.pre_x, s.pre_y) ≠ (c.x, c.y) →
      LineClear cfg s.pre_x s.pre_y c.x c.y

theorem onSurface_iff {cfg : TouchConfig} {p : Pixel} : OnSurface cfg p ↔
    (0 ≤ p.x ∧ p.x < cfg.screenWidth) ∧ 0 ≤ p.y ∧ p.y < cfg.screenHeight := by
  refine ⟨?_, ?_⟩
  · intro h
    exact ⟨h.x, h.y⟩
  · rintro ⟨hx, hy⟩
    have hrow : 0 ≤ cfg.screenWidth * p.y := Int.mul_nonneg (by omega) hy.1
    have hlast : cfg.screenWidth * (p.y + 1) ≤ cfg.screenWidth * cfg.screenHeight :=
      Int.mul_le_mul_of_nonneg_left (by omega) (by omega)
    rw [mul_add, mul_one] at hlast
    refine ⟨hx, hy, ?_⟩
    rw [pixelOffset]
    omega

section Inside
variable {u v e a b : Int} {n : Nat}

/-- The last point before the end of a line: whether it is at the end of its following
coordinate. -/
theorem nearest_before_end (he : 0 ≤ e) (hn : n ≠ 0) :
    nearest (((n - 1 : Nat) : Int) * e) n = e ↔ 2 * e ≤ n := by
  have hlast : ((n - 1 : Nat) : Int) * e = e * n - e := by
    rw [Nat.cast_sub (by omega), Nat.cast_one]
    ring
  rw [hlast]
  exact nearest_sub e (by omega) he

/-- A line that goes to the column `W` or the row `H` at most stays before them. -/
theorem axisPoints_below (hu : u = 1 ∨ u = -1) (hv : v = 1 ∨ v = -1) (he : 0 ≤ e) {W H : Int}
    (hW : a + u * n ≤ W) (hH : b + v * e ≤ H) (hn : n ≠ 0) :
    (∀ p ∈ axisPoints u v n e a b n, p.1 < W ∧ p.2 < H) ↔
      a < W ∧ b < H ∧ (b + v * e = H → (n : Int) < 2 * e) := by
  have hmem : ∀ k < n, pointAt u v n e a b k ∈ axisPoints u v n e a b n := by
    intro k hk
    exact List.mem_map.mpr ⟨k, List.mem_range.mpr hk, rfl⟩
  refine ⟨?_, ?_⟩
  · intro h
    have hfirst := h _ (hmem 0 (by omega))
    rw [pointAt_zero _ _ _ _ _ (Nat.cast_nonneg n)] at hfirst
    refine ⟨hfirst.1, hfirst.2, fun hend => ?_⟩
    by_contra hflat
    -- in a line too flat the last point but one is in the last row already
    have hlast := (h _ (hmem (n - 1) (by omega))).2
    rw [pointAt, (nearest_before_end he hn).mpr (not_lt.mp hflat)] at hlast
    omega
  · rintro ⟨ha, hb, hclear⟩ p hp
    obtain ⟨k, hk, rfl⟩ := List.mem_map.mp hp
    rw [List.mem_range] at hk
    rw [pointAt]
    refine ⟨by rcases hu with rfl | rfl <;> omega, ?_⟩
    have hle : (k : Int) * e ≤ ((n - 1 : Nat) : Int) * e :=
      Int.mul_le_mul_of_nonneg_right (by omega) he
    have hmono := nearest_mono (show 0 < (n : Int) by omega) hle
    obtain ⟨hlow, -⟩ := nearest_within he hk
    obtain ⟨-, hhigh⟩ := nearest_within he (show n - 1 < n by omega)
    have hflat := nearest_before_end he hn
    rcases hv with rfl | rfl
    · -- the row is reached at the end only
      by_cases hend : b + 1 * e = H
      · have hne : nearest (((n - 1 : Nat) : Int) * e) n ≠ e := by
          rw [Ne, hflat]
          have := hclear hend
          omega
        show b + 1 * nearest (k * e) n < H
        omega
      · show b + 1 * nearest (k * e) n < H
        omega
    · show b + -1 * nearest (k * e) n < H
      omega

end Inside

/-- A line to a point of the screen, or of the column or row one past it. -/
theorem linePixels_below {cfg : TouchConfig} {x1 y1 x2 y2 : Int} {color : UInt32}
    (hon : OnScreen cfg x2 y2) (hne : (x1, y1) ≠ (x2, y2)) :
    (∀ p ∈ linePixels x1 y1 x2 y2 color, p.x < cfg.screenWidth ∧ p.y < cfg.screenHeight) ↔
      LineClear cfg x1 y1 x2 y2 := by
  rw [OnScreen] at hon
  have hx : x1 + increment (x2 - x1) * |x2 - x1| = x2 := by rw [increment_mul_abs]; omega
  have hy : y1 + increment (y2 - y1) * |y2 - y1| = y2 := by rw [increment_mul_abs]; omega
  have hxn : ((x2 - x1).natAbs : Int) = |x2 - x1| := (Int.abs_eq_natAbs _).symm
  have hyn : ((y2 - y1).natAbs : Int) = |y2 - y1| := (Int.abs_eq_natAbs _).symm
  have hx0 := abs_nonneg (x2 - x1)
  have hy0 := abs_nonneg (y2 - y1)
  rw [linePixels, LineClear]
  split
  -- along the rows; below, along the columns, with the coordinates exchanged
  · next hlong =>
    have hbelow := axisPoints_below (n := (x2 - x1).natAbs) (a := x1) (b := y1)
      (increment_eq (x2 - x1)) (increment_eq (y2 - y1)) hy0
      (show x1 + increment (x2 - x1) * ((x2 - x1).natAbs : Int) ≤ cfg.screenWidth by
        rw [hxn, hx]; omega)
      (show y1 + increment (y2 - y1) * |y2 - y1| ≤ cfg.screenHeight by rw [hy]; omega)
      (by omega)
    rw [hy, hxn] at hbelow
    rw [List.forall_mem_map, hbelow]
    refine ⟨?_, ?_⟩
    · rintro ⟨hw, hh, hrow⟩
      exact ⟨hw, hh, hrow, fun _ => by omega⟩
    · rintro ⟨hw, hh, hrow, -⟩
      exact ⟨hw, hh, hrow⟩
  · next hlong =>
    have hy1 : (y2 - y1).natAbs ≠ 0 := by
      intro h0
      apply hne
      rw [Prod.mk.injEq]
      omega
    have hbelow := axisPoints_below (n := (y2 - y1).natAbs) (a := y1) (b := x1)
      (increment_eq (y2 - y1)) (increment_eq (x2 - x1)) hx0
      (show y1 + increment (y2 - y1) * ((y2 - y1).natAbs : Int) ≤ cfg.screenHeight by
        rw [hyn, hy]; omega)
      (show x1 + increment (x2 - x1) * |x2 - x1| ≤ cfg.screenWidth by rw [hx]; omega) hy1
    rw [hx, hyn] at hbelow
    rw [List.forall_mem_map]
    refine ⟨?_, ?_⟩
    · intro h
      obtain ⟨hh, hw, hcolumn⟩ := hbelow.mp fun p hp => (h p hp).symm
      exact ⟨hw, hh, fun _ => by omega, hcolumn⟩
    · rintro ⟨hw, hh, -, hcolumn⟩ p hp
      exact (hbelow.mpr ⟨hh, hw, hcolumn⟩ p hp).symm

/-! ## Runs -/

section Run
variable {cfg : TouchConfig} {s : Touch} {c : TrackPoint} {color : UInt32}

theorem trackDraw_actions (cfg : TouchConfig) (s : Touch) (c : TrackPoint) :
    (trackDraw cfg s c).2 =
      if OnScreen cfg c.x c.y then
        if cfg.drawType then [.pixel c.x c.y]
        else if c.press = -1 ∨ c.press = 1 then s.segment c.x c.y else []
      else [] := by
  rw [trackDraw, tpTrackDraw]
  split
  · split
    · rfl
    · split
      · next hlift => rw [if_pos (.inl hlift)]
      · next hlift =>
        split
        · next hfirst => rw [if_neg (by omega)]
        · split
          · next hnext => rw [if_pos (.inr hnext)]
          · next hnext => rw [if_neg (by omega)]
  · rfl

/-- What is written for a point: itself, or the line to it. -/
theorem trackDraw_writes (cfg : TouchConfig) (s : Touch) (c : TrackPoint) (color : UInt32)
    (p : Pixel) : (∃ act ∈ (trackDraw cfg s c).2, Writes color act p) ↔
      OnScreen cfg c.x c.y ∧
        if cfg.drawType then p = ⟨c.x, c.y, color⟩
        else (c.press = -1 ∨ c.press = 1) ∧ s.Kept ∧
          p ∈ linePixels s.pre_x s.pre_y c.x c.y color := by
  rw [trackDraw_actions]
  by_cases hon : OnScreen cfg c.x c.y
  · rw [if_pos hon]
    by_cases ht : cfg.drawType
    · simp [ht, hon, Writes]
    · by_cases hpress : c.press = -1 ∨ c.press = 1
      · by_cases hk : s.Kept
        · simp [ht, hon, hpress, hk, Touch.segment, Writes, paints_iff]
        · simp [ht, hk, Touch.segment]
      · simp [ht, hpress]
  · simp [hon]

theorem trackDraw_kept (hkept : s.Kept → OnScreen cfg s.pre_x s.pre_y)
    (h : (trackDraw cfg s c).1.Kept) :
    OnScreen cfg (trackDraw cfg s c).1.pre_x (trackDraw cfg s c).1.pre_y := by
  rw [trackDraw, tpTrackDraw] at h ⊢
  split
  · next hon =>
    rw [if_pos hon] at h
    split
    · next ht =>
      rw [if_pos ht] at h
      exact hkept h
    · next ht =>
      rw [if_neg ht] at h
      split
      · next hlift =>
        rw [if_pos hlift] at h
        exact absurd rfl h.1
      · next hlift =>
        rw [if_neg hlift] at h
        split
        · exact hon
        · next hfirst =>
          rw [if_neg hfirst] at h
          split
          · exact hon
          · next hnext =>
            rw [if_neg hnext] at h
            exact hkept h
  · next hon =>
    rw [if_neg hon] at h
    exact hkept h

/-- A point that is kept was on the screen, or one past it. -/
theorem trackRun_kept (cfg : TouchConfig) (points : List TrackPoint)
    (h : (trackRun cfg points).Kept) :
    OnScreen cfg (trackRun cfg points).pre_x (trackRun cfg points).pre_y := by
  induction points using List.reverseRecOn with
  | nil => exact absurd rfl h.1
  | append_singleton points c ih =>
    rw [trackRun, List.foldl_append] at h ⊢
    exact trackDraw_kept ih h

/-- What is written for one point is on the surface just when the point is clear. -/
theorem writesInside_iff (hkept : s.Kept → OnScreen cfg s.pre_x s.pre_y) :
    WritesInside cfg color s c ↔ PointClear cfg s c := by
  have hwrites : WritesInside cfg color s c ↔ ∀ p,
      (∃ act ∈ (trackDraw cfg s c).2, Writes color act p) → OnSurface cfg p := by
    refine ⟨?_, ?_⟩
    · rintro h p ⟨act, hact, hp⟩
      exact h act hact p hp
    · intro h act hact p hp
      exact h p ⟨act, hact, hp⟩
  simp only [hwrites, trackDraw_writes, PointClear]
  by_cases hon : OnScreen cfg c.x c.y
  · have hc := hon
    rw [OnScreen] at hc
    by_cases ht : cfg.drawType
    · simp only [hon, ht, if_true, true_and, forall_eq, onSurface_iff, forall_const]
      omega
    · simp only [hon, ht, if_false, true_and, forall_const, Bool.false_eq_true]
      refine ⟨?_, ?_⟩
      · intro h hpress hk hne
        have hbelow : ∀ p ∈ linePixels s.pre_x s.pre_y c.x c.y color,
            p.x < cfg.screenWidth ∧ p.y < cfg.screenHeight := by
          intro p hp
          obtain ⟨hx, hy⟩ := onSurface_iff.mp (h p ⟨hpress, hk, hp⟩)
          exact ⟨hx.2, hy.2⟩
        exact (linePixels_below hon hne).mp hbelow
      · rintro h p ⟨hpress, hk, hp⟩
        have hdrawn := linePixels_drawn s.pre_x s.pre_y c.x c.y color
        -- a line to the point it starts from has no pixel
        have hne : (s.pre_x, s.pre_y) ≠ (c.x, c.y) := by
          intro heq
          obtain ⟨hx, hy⟩ := Prod.mk.inj heq
          have hcount := hdrawn.count
          rw [hx, hy, sub_self, sub_self, abs_zero, max_self] at hcount
          rw [hx, hy] at hp
          exact List.length_pos_of_mem hp |>.ne' (by exact_mod_cast hcount)
        have hbelow := (linePixels_below hon hne).mpr (h hpress hk hne) p hp
        obtain ⟨hx, hy⟩ := hdrawn.box p hp
        have hfrom := hkept hk
        rw [OnScreen] at hfrom
        rw [Set.mem_uIcc] at hx hy
        rw [onSurface_iff]
        omega
  · simp [hon]

end Run

/-- **Every pixel written is on the surface just when every point of the run is clear**: refused,
or on the screen where points are drawn, or else the end of a line that starts on the screen, and
that enters neither the column nor the row one past it. -/
theorem track_on_surface_iff (cfg : TouchConfig) (color : UInt32) (points : List TrackPoint) :
    (∀ pre c post, points = pre ++ c :: post → WritesInside cfg color (trackRun cfg pre) c) ↔
      ∀ pre c post, points = pre ++ c :: post → PointClear cfg (trackRun cfg pre) c := by
  have hpoint : ∀ pre c, WritesInside cfg color (trackRun cfg pre) c ↔
      PointClear cfg (trackRun cfg pre) c :=
    fun pre c => writesInside_iff (trackRun_kept cfg pre)
  refine ⟨?_, ?_⟩
  · intro h pre c post hsplit
    exact (hpoint pre c).mp (h pre c post hsplit)
  · intro h pre c post hsplit
    exact (hpoint pre c).mpr (h pre c post hsplit)

/-- A point of the row one past the screen is taken, and written behind the surface. -/
theorem track_past_screen :
    ¬ ∀ pre c post, [⟨0, 600, 0⟩] = pre ++ c :: post →
      WritesInside { touchPanel with drawType := true } 0
        (trackRun { touchPanel with drawType := true } pre) c := by
  intro h
  have hpixel : OnSurface { touchPanel with drawType := true } ⟨0, 600, 0⟩ :=
    h [] ⟨0, 600, 0⟩ [] rfl (.pixel 0 600) (by decide) ⟨0, 600, 0⟩ rfl
  have hbytes := hpixel.bytes.2
  revert hbytes
  decide

end Lichee.View

import Mathlib.Algebra.Order.Round
import Mathlib.Data.Rat.Floor
import Mathlib.Tactic.FieldSimp
import Mathlib.Tactic.Linarith

/- The nearest integer to a quotient, in integers alone: `nearest n d` is `round (n / d)`
   (`nearest_eq_round`), halves rounded up. A loop that follows the quotient while it adds to
   the numerator keeps the error of the rounding, and steps when twice the error reaches the
   denominator; `nearest_add` and `roundError_add` are that step. -/
namespace Lichee.Base

/-- The integer nearest to `n / d`. -/
def nearest (n d : Int) : Int := (2 * n + d) / (2 * d)

/-- What the rounding leaves of the numerator. -/
def roundError (n d : Int) : Int := n - nearest n d * d

variable {n m d j : Int}

/-- The nearest integer is the one whose error is at most half the denominator. -/
theorem nearest_eq_iff (hd : 0 < d) :
    nearest n d = j ↔ -d ≤ 2 * (n - j * d) ∧ 2 * (n - j * d) < d := by
  have hmul : j * (2 * d) = 2 * (j * d) := by ring
  rw [nearest, Int.ediv_eq_iff_of_pos (by omega), hmul]
  omega

theorem roundError_bounds (n : Int) (hd : 0 < d) :
    -d ≤ 2 * roundError n d ∧ 2 * roundError n d < d :=
  (nearest_eq_iff hd).mp rfl

theorem nearest_mul (j : Int) (hd : 0 < d) : nearest (j * d) d = j := by
  rw [nearest_eq_iff hd]
  omega

theorem nearest_zero (hd : 0 ≤ d) : nearest 0 d = 0 := by
  rcases hd.eq_or_lt with rfl | hd
  · rfl
  · rw [nearest_eq_iff hd]
    omega

/-- A multiple of the denominator is still the nearest one up to a half below it. -/
theorem nearest_sub (j : Int) (hd : 0 < d) (hm : 0 ≤ m) :
    nearest (j * d - m) d = j ↔ 2 * m ≤ d := by
  rw [nearest_eq_iff hd]
  omega

/-- One step of the numerator, by at most the denominator. -/
theorem nearest_add (n : Int) (hd : 0 < d) (hm : 0 ≤ m) (hmd : m ≤ d) :
    nearest (n + m) d =
      if d ≤ 2 * (roundError n d + m) then nearest n d + 1 else nearest n d := by
  have hbounds := roundError_bounds n hd
  rw [roundError] at hbounds ⊢
  rw [nearest_eq_iff hd]
  split
  · rw [add_mul, one_mul]
    omega
  · omega

theorem roundError_add (n : Int) (hd : 0 < d) (hm : 0 ≤ m) (hmd : m ≤ d) :
    roundError (n + m) d =
      if d ≤ 2 * (roundError n d + m) then roundError n d + m - d else roundError n d + m := by
  rw [roundError, nearest_add n hd hm hmd]
  split
  · rw [add_mul, one_mul, roundError]
    omega
  · rw [roundError]
    omega

theorem nearest_mono (hd : 0 < d) (h : n ≤ m) : nearest n d ≤ nearest m d :=
  Int.ediv_le_ediv (by omega) (by omega)

/-- Between two multiples of the denominator lie the factors. -/
theorem nearest_between {a b : Int} (hd : 0 < d) (ha : a * d ≤ n) (hb : n ≤ b * d) :
    a ≤ nearest n d ∧ nearest n d ≤ b := by
  refine ⟨?_, ?_⟩
  · calc a = nearest (a * d) d := (nearest_mul a hd).symm
      _ ≤ nearest n d := nearest_mono hd ha
  · calc nearest n d ≤ nearest (b * d) d := nearest_mono hd hb
      _ = b := nearest_mul b hd

theorem nearest_eq_round (n : Int) (hd : 0 < d) : nearest n d = round ((n : ℚ) / d) := by
  have hd' : (0 : ℚ) < d := by exact_mod_cast hd
  obtain ⟨hlow, hhigh⟩ := roundError_bounds n hd
  rw [roundError] at hlow hhigh
  have hlow' : -(d : ℚ) ≤ 2 * (n - nearest n d * d) := by exact_mod_cast hlow
  have hhigh' : 2 * ((n : ℚ) - nearest n d * d) < d := by exact_mod_cast hhigh
  apply Eq.symm
  rw [round_eq_iff, Set.mem_Ico, le_div_iff₀ hd', div_lt_iff₀ hd']
  constructor <;> linarith

/-- The nearest integer is at most one half away. -/
theorem abs_sub_nearest (n : Int) (hd : 0 < d) : |(n : ℚ) / d - nearest n d| ≤ 1 / 2 := by
  rw [nearest_eq_round n hd]
  exact abs_sub_round _

end Lichee.Base

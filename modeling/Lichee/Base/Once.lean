import Mathlib.Data.List.Destutter

/- A list without its repetitions. `once l` has each run of equal values once, so a sender that
   says the last value again as often as it likes says the same (`once_again`), and what it says
   next is one more (`once_next`). -/
namespace Lichee.Base

variable {α : Type*} [DecidableEq α] {l : List α} {x y : α}

/-- Each value once, however often it stands in a row. -/
def once (l : List α) : List α := l.destutter (· ≠ ·)

theorem destutter'_snoc (x : α) (l : List α) : ∀ a, (l ++ [x]).destutter' (· ≠ ·) a =
    if (a :: l).getLast? = some x then l.destutter' (· ≠ ·) a
    else l.destutter' (· ≠ ·) a ++ [x] := by
  induction l with
  | nil =>
    intro a
    by_cases h : a = x <;> simp [h]
  | cons b l ih =>
    intro a
    by_cases h : a = b
    · subst h
      rw [List.cons_append, List.destutter'_cons_neg _ (not_not.mpr rfl), ih,
        List.destutter'_cons_neg _ (not_not.mpr rfl), List.getLast?_cons_cons]
    · rw [List.cons_append, List.destutter'_cons_pos _ h, ih, List.destutter'_cons_pos _ h,
        List.getLast?_cons_cons]
      split
      · rfl
      · exact (List.cons_append ..).symm

theorem once_snoc (l : List α) (x : α) :
    once (l ++ [x]) = if l.getLast? = some x then once l else once l ++ [x] := by
  cases l with
  | nil => rfl
  | cons a l => exact destutter'_snoc x l a

/-- The last value again. -/
theorem once_again (h : l.getLast? = some x) : once (l ++ [x]) = once l := by
  rw [once_snoc, if_pos h]

theorem mem_once : x ∈ once l ↔ x ∈ l := by
  induction l using List.reverseRecOn with
  | nil => exact Iff.rfl
  | append_singleton l y ih =>
    rw [once_snoc]
    split
    · next h =>
      have hy : y ∈ l := List.mem_of_getLast? h
      rw [ih, List.mem_append, List.mem_singleton, or_iff_left_of_imp (by rintro rfl; exact hy)]
    · rw [List.mem_append, List.mem_append, ih]

/-- A value that has not been said. -/
theorem once_next (h : x ∉ once l) : once (l ++ [x]) = once l ++ [x] := by
  rw [once_snoc, if_neg fun hlast => h (mem_once.mpr (List.mem_of_getLast? hlast))]

end Lichee.Base

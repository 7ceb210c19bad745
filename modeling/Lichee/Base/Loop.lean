import Mathlib.Logic.Basic

/- Loops whose body may leave the enclosing function. `whileLoop guard step n s` is
   `while (guard s) s = step s;` from `s`, where a `.error` of the body is the exit the
   code takes out of it, cut off (`none`) after `n` iterations. `Reach` relates a state
   to every state later seen at the loop head, so a property of each iteration is a
   property of `Reach` and is proved once by `Reach.invariant`. -/
namespace Lichee.Base

variable {σ ε : Type}

def whileLoop (guard : σ → Bool) (step : σ → Except ε σ) : Nat → σ → Option (Except ε σ)
  | 0, s => if guard s then none else some (.ok s)
  | n + 1, s =>
    if guard s then
      match step s with
      | .error e => some (.error e)
      | .ok t => whileLoop guard step n t
    else some (.ok s)

/-- `t` is seen at the head of the loop started in `s`. -/
inductive Reach (guard : σ → Bool) (step : σ → Except ε σ) (s : σ) : σ → Prop
  | refl : Reach guard step s s
  | tail {t u : σ} : Reach guard step s t → guard t = true → step t = .ok u →
      Reach guard step s u

/-- The state at the loop head after `n` iterations, when the loop gets there. -/
def atHead (guard : σ → Bool) (step : σ → Except ε σ) : Nat → σ → Option σ
  | 0, s => some s
  | n + 1, s =>
    if guard s then
      match step s with
      | .error _ => none
      | .ok t => atHead guard step n t
    else none

variable {guard : σ → Bool} {step : σ → Except ε σ}

namespace Reach

/-- What the start has and one iteration keeps holds at every iteration. -/
theorem invariant {I : σ → Prop} {s t : σ} (h : Reach guard step s t) (hs : I s)
    (hI : ∀ t u, I t → guard t = true → step t = .ok u → I u) : I t := by
  induction h with
  | refl => exact hs
  | tail _ hg hstep ih => exact hI _ _ ih hg hstep

/-- As `invariant`, with the iterations known to be reached. -/
theorem invariant_reach {I : σ → Prop} {s t : σ} (h : Reach guard step s t) (hs : I s)
    (hI : ∀ t u, Reach guard step s t → I t → guard t = true → step t = .ok u → I u) :
    I t := by
  induction h with
  | refl => exact hs
  | tail hr hg hstep ih => exact hI _ _ hr ih hg hstep

theorem head {s t u : σ} (hg : guard s = true) (hstep : step s = .ok t)
    (h : Reach guard step t u) : Reach guard step s u := by
  induction h with
  | refl => exact .tail .refl hg hstep
  | tail _ hg' hstep' ih => exact .tail ih hg' hstep'

theorem trans {s t u : σ} (h₁ : Reach guard step s t) (h₂ : Reach guard step t u) :
    Reach guard step s u := by
  induction h₂ with
  | refl => exact h₁
  | tail _ hg hstep ih => exact .tail ih hg hstep

/-- A state seen later is seen from the state the first iteration leads to. -/
theorem uncons {s t : σ} (h : Reach guard step s t) (hne : s ≠ t) :
    ∃ u, guard s = true ∧ step s = .ok u ∧ Reach guard step u t := by
  induction h with
  | refl => exact absurd rfl hne
  | @tail t u hr hg hstep ih =>
    by_cases hst : s = t
    · subst hst
      exact ⟨u, hg, hstep, .refl⟩
    · obtain ⟨v, hgs, hsv, hvt⟩ := ih hst
      exact ⟨v, hgs, hsv, .tail hvt hg hstep⟩

end Reach

/-- One more iteration at the end. -/
theorem atHead_snoc {n : Nat} {s t u : σ} (hn : atHead guard step n s = some t)
    (hg : guard t = true) (hstep : step t = .ok u) : atHead guard step (n + 1) s = some u := by
  induction n generalizing s with
  | zero =>
    cases hn
    simp only [atHead, hg, hstep, if_true]
  | succ n ih =>
    rw [atHead] at hn
    split at hn
    · next hgs =>
      split at hn
      · cases hn
      · next v hv =>
        rw [atHead, if_pos hgs, hv]
        exact ih hn
    · cases hn

/-- A loop that does not get to one head does not get to a later one. -/
theorem atHead_none {n m : Nat} {s : σ} (h : atHead guard step n s = none) (hnm : n ≤ m) :
    atHead guard step m s = none := by
  induction n generalizing m s with
  | zero => cases h
  | succ n ih =>
    obtain ⟨k, rfl⟩ := Nat.exists_eq_add_of_le hnm
    rw [show n + 1 + k = n + k + 1 by omega, atHead]
    rw [atHead] at h
    split
    · next hg =>
      rw [if_pos hg] at h
      cases hs : step s with
      | error e => rfl
      | ok t =>
        rw [hs] at h
        exact ih h (Nat.le_add_right n k)
    · rfl

/-- A state is seen at the loop head exactly when some number of iterations leads to it. -/
theorem reach_iff_atHead {s t : σ} :
    Reach guard step s t ↔ ∃ n, atHead guard step n s = some t := by
  refine ⟨?_, ?_⟩
  · intro h
    induction h with
    | refl => exact ⟨0, rfl⟩
    | tail _ hg hstep ih =>
      obtain ⟨n, hn⟩ := ih
      exact ⟨n + 1, atHead_snoc hn hg hstep⟩
  · rintro ⟨n, hn⟩
    induction n generalizing s with
    | zero =>
      cases hn
      exact .refl
    | succ n ih =>
      rw [atHead] at hn
      split at hn
      · next hg =>
        split at hn
        · cases hn
        · next v hv => exact (ih hn).head hg hv
      · cases hn

theorem whileLoop_exit {s : σ} (h : guard s = false) (n : Nat) :
    whileLoop guard step n s = some (.ok s) := by
  cases n <;> simp [whileLoop, h]

theorem whileLoop_error {s : σ} {e : ε} (hg : guard s = true) (h : step s = .error e)
    (n : Nat) : whileLoop guard step (n + 1) s = some (.error e) := by
  simp [whileLoop, hg, h]

theorem whileLoop_next {s t : σ} (hg : guard s = true) (h : step s = .ok t) (n : Nat) :
    whileLoop guard step (n + 1) s = whileLoop guard step n t := by
  simp [whileLoop, hg, h]

/-- A loop whose states are known in order runs through them. -/
theorem whileLoop_count (f : Nat → σ) {n : Nat} (hend : guard (f n) = false)
    (h : ∀ k < n, guard (f k) = true ∧ step (f k) = .ok (f (k + 1))) :
    whileLoop guard step n (f 0) = some (.ok (f n)) := by
  induction n generalizing f with
  | zero => exact whileLoop_exit hend 0
  | succ n ih =>
    obtain ⟨hg, hstep⟩ := h 0 (Nat.zero_lt_succ n)
    rw [whileLoop_next hg hstep]
    exact ih (fun k => f (k + 1)) hend fun k hk => h (k + 1) (Nat.succ_lt_succ hk)

/-- More iterations than were needed change nothing. -/
theorem whileLoop_mono {n m : Nat} {s : σ} {r : Except ε σ}
    (h : whileLoop guard step n s = some r) (hnm : n ≤ m) :
    whileLoop guard step m s = some r := by
  induction n generalizing m s with
  | zero =>
    simp only [whileLoop] at h
    split at h
    · cases h
    · next hg => rw [whileLoop_exit (by simpa using hg)]; exact h
  | succ n ih =>
    cases hg : guard s
    · rw [whileLoop_exit hg] at h ⊢; exact h
    · obtain ⟨m, rfl⟩ : ∃ k, m = k + 1 := ⟨m - 1, by omega⟩
      cases hs : step s with
      | error e => rw [whileLoop_error hg hs] at h ⊢; exact h
      | ok t =>
        rw [whileLoop_next hg hs] at h ⊢
        exact ih h (by omega)

/-- A loop has at most one outcome. -/
theorem whileLoop_unique {n m : Nat} {s : σ} {r r' : Except ε σ}
    (h : whileLoop guard step n s = some r) (h' : whileLoop guard step m s = some r') :
    r = r' := by
  have h₁ := whileLoop_mono h (Nat.le_max_left n m)
  have h₂ := whileLoop_mono h' (Nat.le_max_right n m)
  exact Option.some.inj (h₁.symm.trans h₂)

/-- The outcome of the loop from `s`, with as many iterations as it takes. -/
def Ends (guard : σ → Bool) (step : σ → Except ε σ) (s : σ) (r : Except ε σ) : Prop :=
  ∃ n, whileLoop guard step n s = some r

theorem ends_exit {s : σ} {r : Except ε σ} (h : guard s = false) :
    Ends guard step s r ↔ r = .ok s := by
  refine ⟨?_, ?_⟩
  · rintro ⟨n, hn⟩
    rw [whileLoop_exit h] at hn
    exact (Option.some.inj hn).symm
  · rintro rfl
    exact ⟨0, whileLoop_exit h 0⟩

theorem ends_error {s : σ} {e : ε} {r : Except ε σ} (hg : guard s = true)
    (h : step s = .error e) : Ends guard step s r ↔ r = .error e := by
  refine ⟨?_, ?_⟩
  · rintro ⟨n, hn⟩
    exact whileLoop_unique hn (whileLoop_error hg h 0)
  · rintro rfl
    exact ⟨1, whileLoop_error hg h 0⟩

/-- An iteration leaves the outcome as it is. -/
theorem ends_next {s t : σ} {r : Except ε σ} (hg : guard s = true) (h : step s = .ok t) :
    Ends guard step s r ↔ Ends guard step t r := by
  refine ⟨?_, ?_⟩
  · rintro ⟨n, hn⟩
    refine ⟨n, ?_⟩
    rw [← whileLoop_next hg h]
    exact whileLoop_mono hn (by omega)
  · rintro ⟨n, hn⟩
    exact ⟨n + 1, by rw [whileLoop_next hg h]; exact hn⟩

/-- A loop ends as it does from any state it reaches. -/
theorem ends_of_reach {s t : σ} {r : Except ε σ} (h : Reach guard step s t) :
    Ends guard step s r ↔ Ends guard step t r := by
  induction h with
  | refl => exact Iff.rfl
  | tail _ hg hstep ih => exact ih.trans (ends_next hg hstep)

/-- The loop goes on from any state it reaches. -/
theorem whileLoop_of_reach {s t : σ} {r : Except ε σ} (h : Reach guard step s t) {n : Nat}
    (ht : whileLoop guard step n t = some r) : ∃ m, whileLoop guard step m s = some r := by
  induction h generalizing n with
  | refl => exact ⟨n, ht⟩
  | tail _ hg hstep ih => exact ih (n := n + 1) (by rw [whileLoop_next hg hstep]; exact ht)

theorem reach_of_whileLoop {n : Nat} {s t : σ} (h : whileLoop guard step n s = some (.ok t)) :
    Reach guard step s t ∧ guard t = false := by
  induction n generalizing s with
  | zero =>
    simp only [whileLoop] at h
    split at h
    · cases h
    · next hg => cases h; exact ⟨.refl, by simpa using hg⟩
  | succ n ih =>
    cases hg : guard s
    · rw [whileLoop_exit hg] at h; cases h; exact ⟨.refl, hg⟩
    · cases hs : step s with
      | error e => rw [whileLoop_error hg hs] at h; cases h
      | ok u =>
        rw [whileLoop_next hg hs] at h
        obtain ⟨hr, ht⟩ := ih h
        exact ⟨hr.head hg hs, ht⟩

/-- A loop that leaves the function does so in the body of a reached iteration. -/
theorem reach_of_whileLoop_error {n : Nat} {s : σ} {e : ε}
    (h : whileLoop guard step n s = some (.error e)) :
    ∃ t, Reach guard step s t ∧ guard t = true ∧ step t = .error e := by
  induction n generalizing s with
  | zero =>
    simp only [whileLoop] at h
    split at h <;> cases h
  | succ n ih =>
    cases hg : guard s
    · rw [whileLoop_exit hg] at h; cases h
    · cases hs : step s with
      | error e' =>
        rw [whileLoop_error hg hs] at h
        cases h
        exact ⟨s, .refl, hg, hs⟩
      | ok u =>
        rw [whileLoop_next hg hs] at h
        obtain ⟨t, hr, ht⟩ := ih h
        exact ⟨t, hr.head hg hs, ht⟩

/-- A measure that every reached iteration lowers bounds the number of iterations. -/
theorem whileLoop_terminates (μ : σ → Nat) {s : σ}
    (hμ : ∀ t u, Reach guard step s t → guard t = true → step t = .ok u → μ u < μ t)
    {n : Nat} (hn : μ s ≤ n) : ∃ r, whileLoop guard step (n + 1) s = some r := by
  induction n generalizing s with
  | zero =>
    cases hg : guard s
    · exact ⟨_, whileLoop_exit hg _⟩
    · cases hs : step s with
      | error e => exact ⟨_, whileLoop_error hg hs _⟩
      | ok t => exact absurd (hμ s t .refl hg hs) (by omega)
  | succ n ih =>
    cases hg : guard s
    · exact ⟨_, whileLoop_exit hg _⟩
    · cases hs : step s with
      | error e => exact ⟨_, whileLoop_error hg hs _⟩
      | ok t =>
        rw [whileLoop_next hg hs]
        have hlt := hμ s t .refl hg hs
        exact ih (fun t' u hr => hμ t' u (hr.head hg hs)) (by omega)

end Lichee.Base

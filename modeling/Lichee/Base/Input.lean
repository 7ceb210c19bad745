import Lichee.Base.Loop

/- Loops that consume a list: the second part of the state is what is left of it, and the loop
   goes on as long as something is left. Where an iteration does the same to an input with more
   behind it (`Prefixed`), the loop goes through two inputs at once as through one after the
   other (`ends_append`). -/
namespace Lichee.Base

variable {σ α ε : Type}

/-- There is input left. -/
def hasInput (s : σ × List α) : Bool := !s.2.isEmpty

theorem hasInput_of_ne {s : σ} {l : List α} (h : l ≠ []) : hasInput (s, l) = true := by
  cases l with
  | nil => exact absurd rfl h
  | cons _ _ => rfl

/-- With `b` behind its input `step` does what `first` does, and leaves `b`. -/
def Prefixed (first step : σ × List α → Except ε (σ × List α)) (b : List α) : Prop :=
  ∀ s l, l ≠ [] → step (s, l ++ b) = (first (s, l)).map fun t => (t.1, t.2 ++ b)

variable {first step : σ × List α → Except ε (σ × List α)} {b : List α}

/-- What is seen on the first input is seen with `b` behind it. -/
theorem Prefixed.reach (h : Prefixed first step b) {s t : σ} {a l : List α}
    (hr : Reach hasInput first (s, a) (t, l)) :
    Reach hasInput step (s, a ++ b) (t, l ++ b) := by
  have hpair : ∀ u, Reach hasInput first (s, a) u →
      Reach hasInput step (s, a ++ b) (u.1, u.2 ++ b) := by
    intro u hu
    induction hu with
    | refl => exact .refl
    | @tail u v _ hg hstep ih =>
      obtain ⟨u, l⟩ := u
      have hl : l ≠ [] := by
        intro h0
        rw [h0] at hg
        cases hg
      apply ih.tail (hasInput_of_ne (List.append_ne_nil_of_left_ne_nil hl b))
      show step (u, l ++ b) = _
      rw [h u l hl, hstep]
      rfl
  exact hpair (t, l) hr

/-- Once the first input is gone the loop is on the second. -/
theorem Prefixed.ends_ok (h : Prefixed first step b) {s t : σ} {a : List α}
    {r : Except ε (σ × List α)} (hfirst : Ends hasInput first (s, a) (.ok (t, [])))
    (hrest : Ends hasInput step (t, b) r) : Ends hasInput step (s, a ++ b) r := by
  obtain ⟨n, hn⟩ := hfirst
  obtain ⟨m, hm⟩ := hrest
  exact whileLoop_of_reach (h.reach (reach_of_whileLoop hn).1) hm

/-- A way out on the first input is one with the second behind it. -/
theorem Prefixed.ends_error (h : Prefixed first step b) {s : σ} {a : List α} {e : ε}
    (hfirst : Ends hasInput first (s, a) (.error e)) :
    Ends hasInput step (s, a ++ b) (.error e) := by
  obtain ⟨n, hn⟩ := hfirst
  obtain ⟨⟨t, l⟩, hr, hg, herr⟩ := reach_of_whileLoop_error hn
  have hl : l ≠ [] := by
    intro h0
    rw [h0] at hg
    cases hg
  apply whileLoop_of_reach (h.reach hr) (n := 1)
  apply whileLoop_error (hasInput_of_ne (List.append_ne_nil_of_left_ne_nil hl b))
  rw [h t l hl, herr]
  rfl

/-- **Both inputs at once, or one after the other.** -/
theorem Prefixed.ends_append (h : Prefixed first step b) {s : σ} {a : List α}
    {r : Except ε (σ × List α)} :
    Ends hasInput step (s, a ++ b) r ↔
      (∃ t, Ends hasInput first (s, a) (.ok (t, [])) ∧ Ends hasInput step (t, b) r) ∨
        ∃ e, r = .error e ∧ Ends hasInput first (s, a) (.error e) := by
  refine ⟨?_, ?_⟩
  · intro ⟨n, hn⟩
    -- along the iterations on both, as long as some of the first input is left
    induction n generalizing s a with
    | zero =>
      cases a with
      | nil => exact .inl ⟨s, (ends_exit rfl).mpr rfl, 0, hn⟩
      | cons x a => cases hn
    | succ n ih =>
      by_cases ha : a = []
      · rw [ha, List.nil_append] at hn
        rw [ha]
        exact .inl ⟨s, (ends_exit rfl).mpr rfl, n + 1, hn⟩
      · have hboth := hasInput_of_ne (s := s) (List.append_ne_nil_of_left_ne_nil ha b)
        have hfst := hasInput_of_ne (s := s) ha
        cases hs : first (s, a) with
        | error e =>
          have herr : step (s, a ++ b) = .error e := by
            rw [h s a ha, hs]
            rfl
          rw [whileLoop_error hboth herr] at hn
          exact .inr ⟨e, (Option.some.inj hn).symm, (Base.ends_error hfst hs).mpr rfl⟩
        | ok t =>
          have hok : step (s, a ++ b) = .ok (t.1, t.2 ++ b) := by
            rw [h s a ha, hs]
            rfl
          rw [whileLoop_next hboth hok] at hn
          simp only [ends_next hfst hs]
          exact ih hn
  · intro hends
    obtain ⟨t, hfirst, hrest⟩ | ⟨e, rfl, hfirst⟩ := hends
    · exact h.ends_ok hfirst hrest
    · exact h.ends_error hfirst

end Lichee.Base

import Lichee.Core.Launcher

/- Testcases that cannot be run (launcher.c). The launcher writes a failure line for an
   entry without a program, and the child of an entry writes one when `execvp` comes back.
   When `fork` fails `run_one_testcase` only prints and returns -1, which `main` does not
   look at: the entry stays without a line. -/
namespace Lichee.Core
open Base View

variable {T : TestTable}

/-- The program of an entry runs, or has run. -/
def Proc.started : Proc → Bool
  | .child (some true) _ _ => true
  | _ => false

/-- The failure lines of an entry. -/
def failures (i : Entry T) (s : Sys T) : List (Writer T × List UInt8) :=
  s.written.filter (·.2 = failLine i)

/-- What is claimed of the entries once the launcher has finished: one failure line for each
that was not started, and none from the launcher for the others. -/
structure Reported (s : Sys T) : Prop where
  notStarted : ∀ i, (s.proc i).started = false → (failures i s).length = 1
  started : ∀ i, (s.proc i).started = true → (.launcher, failLine i) ∉ s.written

/-- The failure lines of an entry, by what has become of it. -/
def Tally (i : Entry T) (l : List (Writer T × List UInt8)) : Proc → Prop
  | .unvisited => l = []
  | .noProgram => l = [(.launcher, failLine i)]
  | .forkFailed => l = []
  | .child none _ _ => l = []
  | .child (some false) _ _ => l = [(.child i, failLine i)]
  | .child (some true) _ _ => ∀ p ∈ l, p.1 = .child i

/-- What the failure lines say of a run, and that no child exits before `execvp`. -/
structure Tallied (s : Sys T) : Prop where
  tally : ∀ i, Tally i (failures i s) (s.proc i)
  ran : ∀ i exec life sent, s.proc i = .child exec life sent → life ≠ .alive → exec ≠ none

/-! ## Whose lines are whose -/

/-- The digits in front of a report line are its id. -/
theorem Report.line_digits (r : Report T) : r.line.takeWhile isdigit = decimal r.id := by
  have hdig : ∀ c ∈ decimal (r.id : Nat), isdigit c = true := fun c h => isdigit_of_mem_decimal h
  rw [Report.line_eq, Report.head, List.append_assoc, List.takeWhile_append_of_pos hdig,
    List.cons_append, List.takeWhile_cons_of_neg (by decide), List.append_nil]

theorem Report.id_of_line {r r' : Report T} (h : r.line = r'.line) : r.id = r'.id := by
  have hd := congrArg (fun l => number (l.takeWhile isdigit)) h
  simp only [Report.line_digits, number_decimal] at hd
  exact Fin.ext hd

/-- A report of one entry is no failure line of another. -/
theorem Report.line_ne_failLine {r : Report T} {i j : Entry T} (hr : r.id = i) (h : j ≠ i) :
    r.line ≠ failLine j := by
  rw [failLine_eq]
  intro heq
  have hid := Report.id_of_line heq
  exact h (hid.symm.trans hr)

theorem failLine_ne {i j : Entry T} (h : j ≠ i) : failLine i ≠ failLine j := by
  rw [failLine_eq i]
  exact Report.line_ne_failLine (r := failReport i) rfl h

theorem completionLine_ne_failLine (i : Entry T) : completionLine ≠ failLine i :=
  fun h => not_completion_of_report (failLine_report i) h.symm

theorem failures_write {s t : Sys T} {new : List (Writer T × List UInt8)}
    (hcons : t.consumed = s.consumed) (hpipe : t.pipe = s.pipe ++ new) (i : Entry T) :
    failures i t = failures i s ++ new.filter (·.2 = failLine i) := by
  have hwritten : t.written = s.written ++ new :=
    calc t.written = s.consumed ++ (s.pipe ++ new) := by rw [Sys.written, hcons, hpipe]
      _ = s.written ++ new := (List.append_assoc _ _ _).symm
  rw [failures, failures, hwritten, List.filter_append]

theorem filter_other {w : Writer T} {line : List UInt8} {i : Entry T} (h : line ≠ failLine i) :
    [(w, line)].filter (·.2 = failLine i) = [] := by
  simp [h]

/-! ## Every step keeps the tally -/

namespace Tallied
variable {s t : Sys T}

theorem of_proc (hs : Tallied s) {i : Entry T} {p : Proc} (hp : s.proc i = p) :
    Tally i (failures i s) p := by
  rw [← hp]
  exact hs.tally i

/-- No failure line was written and no entry changed its kind. -/
theorem silent (hs : Tallied s) (hfail : ∀ i, failures i t = failures i s)
    (hkind : ∀ i l, Tally i l (s.proc i) → Tally i l (t.proc i))
    (hran : ∀ i exec life sent, t.proc i = .child exec life sent → life ≠ .alive → exec ≠ none) :
    Tallied t := by
  refine ⟨fun i => ?_, hran⟩
  rw [hfail]
  exact hkind i _ (hs.tally i)

/-- Entry `i` became `p`, and only lines of entry `i` were written. -/
theorem update (hs : Tallied s) {i : Entry T} {p : Proc}
    (new : List (Writer T × List UInt8)) (hproc : t.proc = Function.update s.proc i p)
    (hcons : t.consumed = s.consumed) (hpipe : t.pipe = s.pipe ++ new)
    (hother : ∀ j, j ≠ i → new.filter (·.2 = failLine j) = [])
    (hself : Tally i (failures i s ++ new.filter (·.2 = failLine i)) p)
    (hran : ∀ exec life sent, p = .child exec life sent → life ≠ .alive → exec ≠ none) :
    Tallied t := by
  refine ⟨?_, ?_⟩
  · intro j
    rw [failures_write hcons hpipe, hproc]
    refine proc_update s.proc i p
      (P := fun j p => Tally j (failures j s ++ new.filter (·.2 = failLine j)) p) hself ?_ j
    intro j hj
    rw [hother j hj, List.append_nil]
    exact hs.tally j
  · rw [hproc]
    exact proc_update s.proc i p (P := fun _ p => ∀ exec life sent,
      p = .child exec life sent → life ≠ .alive → exec ≠ none) hran fun j _ => hs.ran j

/-- A child moved on without a line. -/
theorem live (hs : Tallied s) {i : Entry T} {exec life life' sent sent'}
    (hc : s.proc i = .child exec life sent)
    (hproc : t.proc = Function.update s.proc i (.child exec life' sent'))
    (hcons : t.consumed = s.consumed) (hpipe : t.pipe = s.pipe) (hran : exec ≠ none) :
    Tallied t := by
  refine hs.update [] hproc hcons (by rw [hpipe, List.append_nil]) (fun _ _ => rfl) ?_ ?_
  · have htally := hs.of_proc hc
    rw [List.filter_nil, List.append_nil]
    cases exec with
    | none => exact absurd rfl hran
    | some ran => cases ran <;> exact htally
  · rintro _ _ _ ⟨⟩ _
    exact hran

end Tallied

theorem tallied_launch (T : TestTable) : Tallied (launch T) := ⟨fun _ => rfl, nofun⟩

theorem tallied_launchStep {s t : Sys T} (h : LaunchStep T s t) (hs : Tallied s)
    (hw : Waits s) : Tallied t := by
  have hvisit : ∀ {i : Entry T}, s.pc = .start i → failures i s = [] := by
    intro i hpc
    exact hs.of_proc (hw.later i (by rw [hpc]; exact le_refl _))
  cases h with
  | noProgram i hpc hbin =>
    refine hs.update [(.launcher, failLine i)] rfl rfl rfl ?_ ?_ nofun
    · intro j hj
      exact filter_other (failLine_ne hj)
    · rw [hvisit hpc]
      simp [Tally]
  | forkFails i hpc hbin =>
    -- the one way to fail that writes nothing
    refine hs.update [] rfl rfl (List.append_nil _).symm (fun _ _ => rfl) ?_ nofun
    rw [hvisit hpc]
    rfl
  | fork i hpc hbin =>
    refine hs.update [] rfl rfl (List.append_nil _).symm (fun _ _ => rfl) ?_ ?_
    · rw [hvisit hpc]
      rfl
    · rintro _ _ _ ⟨⟩ hlife
      exact absurd rfl hlife
  | wait i hpc hwait => exact hs.silent (fun _ => rfl) (fun _ _ h => h) hs.ran
  | noWait i hpc hwait => exact hs.silent (fun _ => rfl) (fun _ _ h => h) hs.ran
  | waited i exec sent hpc hc => exact hs.live hc rfl rfl rfl (hs.ran i _ _ _ hc nofun)
  | allStarted i hpc hi => exact hs.silent (fun _ => rfl) (fun _ _ h => h) hs.ran
  | drained i tasks exec sent hpc hc => exact hs.live hc rfl rfl rfl (hs.ran i _ _ _ hc nofun)
  | complete hpc =>
    refine hs.silent (fun i => ?_) (fun _ _ h => h) hs.ran
    simp only [failures, Sys.written, ← List.append_assoc, List.filter_append,
      filter_other (completionLine_ne_failLine i), List.append_nil]

theorem tallied_childStep {s t : Sys T} (h : ChildStep T ownId s t) (hs : Tallied s) :
    Tallied t := by
  have hnone : ∀ {i : Entry T}, s.proc i = .child none .alive [] → failures i s = [] := by
    intro i hc
    exact hs.of_proc hc
  cases h with
  | exec i hc =>
    refine hs.update [] rfl rfl (List.append_nil _).symm (fun _ _ => rfl) ?_ ?_
    · rw [hnone hc]
      exact nofun
    · rintro _ _ _ ⟨⟩ _
      exact nofun
  | execFails i hc =>
    refine hs.update [(.child i, failLine i)] rfl rfl rfl ?_ ?_ ?_
    · intro j hj
      exact filter_other (failLine_ne hj)
    · rw [hnone hc]
      simp [Tally]
    · rintro _ _ _ ⟨⟩ _
      exact nofun
  | report i sent r hc hr hshort =>
    refine hs.update [(.child i, r.line)] rfl rfl rfl ?_ ?_ ?_
    · intro j hj
      exact filter_other (Report.line_ne_failLine hr hj)
    · intro p hp
      rcases List.mem_append.mp hp with hp | hp
      · exact hs.of_proc hc p hp
      · rw [List.mem_singleton.mp (List.mem_of_mem_filter hp)]
    · rintro _ _ _ ⟨⟩ _
      exact nofun
  | exit i ran sent hc => exact hs.live hc rfl rfl rfl nofun

theorem tallied_coreStep {s t : Sys T} (h : CoreStep T s t) (hs : Tallied s) : Tallied t := by
  cases h with
  | read w line rest u hleft hp hc =>
    exact hs.silent (fun i => by simp [failures, Sys.written, hp]) (fun _ _ h => h) hs.ran
  | leave w line rest hleft hp hc =>
    exact hs.silent (fun i => by simp [failures, Sys.written, hp]) (fun _ _ h => h) hs.ran

theorem reachable_tallied {s : Sys T} (h : Reachable T ownId s) : Tallied s := by
  induction h with
  | refl => exact tallied_launch T
  | tail hr hstep ih =>
    cases hstep with
    | launcher h => exact tallied_launchStep h ih (reachable_inv hr).1
    | child h => exact tallied_childStep h ih
    | core h => exact tallied_coreStep h ih

/-! ## What a finished launcher has reported -/

/-- Behind the completion line every entry has been decided. -/
theorem decided {s : Sys T} (hw : Waits s) (hs : Tallied s) (hpc : s.pc = .finished)
    (i : Entry T) : s.proc i ≠ .unvisited ∧ ∀ life sent, s.proc i ≠ .child none life sent := by
  refine ⟨?_, ?_⟩
  · apply hw.earlier i
    rw [hpc]
    exact i.isLt
  · -- a child that has been waited for has come to `execvp`
    intro life sent hc
    have hlife := hw.waited hpc i none life sent hc
    exact hs.ran i none life sent hc (by rw [hlife]; exact nofun) rfl

theorem forkFailed_silent {s : Sys T} (hs : Tallied s) {i : Entry T}
    (hi : s.proc i = .forkFailed) : failures i s = [] := hs.of_proc hi

theorem reported_of_forks {s : Sys T} (hw : Waits s) (hs : Tallied s) (hpc : s.pc = .finished)
    (hforks : ∀ i, s.proc i ≠ .forkFailed) : Reported s := by
  refine ⟨?_, ?_⟩
  · intro i hi
    obtain ⟨hvisited, hran⟩ := decided hw hs hpc i
    cases hp : s.proc i with
    | unvisited => exact absurd hp hvisited
    | noProgram =>
      have hfail : failures i s = [(.launcher, failLine i)] := hs.of_proc hp
      rw [hfail]
      rfl
    | forkFailed => exact absurd hp (hforks i)
    | child exec life sent =>
      match exec, hp with
      | none, hp => exact absurd hp (hran life sent)
      | some true, hp =>
        rw [hp] at hi
        cases hi
      | some false, hp =>
        have hfail : failures i s = [(.child i, failLine i)] := hs.of_proc hp
        rw [hfail]
        rfl
  · intro i hi hmem
    have hfail : (.launcher, failLine i) ∈ failures i s := by
      rw [failures, List.mem_filter]
      exact ⟨hmem, by simp⟩
    cases hp : s.proc i with
    | unvisited => rw [hp] at hi; cases hi
    | noProgram => rw [hp] at hi; cases hi
    | forkFailed => rw [hp] at hi; cases hi
    | child exec life sent =>
      match exec, hp with
      | none, hp => rw [hp] at hi; cases hi
      | some false, hp => rw [hp] at hi; cases hi
      | some true, hp =>
        -- the failure lines of an entry whose program runs come from its child
        have hchild := hs.of_proc hp _ hfail
        cases hchild

/-- Behind the completion line every entry that was not started has its failure line, and
the started ones have none from the launcher, exactly when no `fork` has failed. -/
theorem reported_iff (T : TestTable) (s : Sys T) (h : Reachable T ownId s)
    (hpc : s.pc = .finished) : Reported s ↔ ∀ i, s.proc i ≠ .forkFailed := by
  have hs := reachable_tallied h
  refine ⟨?_, ?_⟩
  · intro hrep i hi
    have hone := hrep.notStarted i (by rw [hi]; rfl)
    rw [forkFailed_silent hs hi] at hone
    cases hone
  · intro hforks
    exact reported_of_forks (reachable_inv h).1 hs hpc hforks

/-- A table of one entry without a program. -/
def emptyProgram : TestTable where
  entries := [⟨ascii "memory", ascii "Memory", 1, [], 0, 0, 0⟩]
  ids := by
    intro i h
    have : i = 0 := Nat.lt_one_iff.mp h
    subst this
    rfl
  count := by decide

/-- The launcher reports it and finishes. -/
theorem reported_noProgram : ∃ s : Sys emptyProgram, s.pc = .finished ∧
    (Reported s ↔ ∀ i, s.proc i ≠ .forkFailed) := by
  have h : Reachable emptyProgram ownId (launch emptyProgram) := .refl
  have h := h.tail (.launcher (.noProgram ⟨0, by decide⟩ rfl (by decide)))
  have h := h.tail (.launcher (.allStarted 1 rfl (by decide)))
  have h := h.tail (.launcher (.complete rfl))
  exact ⟨_, rfl, reported_iff emptyProgram _ h rfl⟩

/-- The one `fork` fails, the launcher finishes, and no line tells of the entry. -/
theorem fork_failure_silent : ∃ s : Sys oneTestcase, Reachable oneTestcase ownId s ∧
    s.pc = .finished ∧ ¬ Reported s := by
  have h : Reachable oneTestcase ownId (launch oneTestcase) := .refl
  have h := h.tail (.launcher (.forkFails ⟨0, by decide⟩ rfl (by decide)))
  have h := h.tail (.launcher (.allStarted 1 rfl (by decide)))
  have h := h.tail (.launcher (.complete rfl))
  refine ⟨_, h, rfl, ?_⟩
  intro hrep
  have hone := hrep.notStarted ⟨0, by decide⟩ rfl
  rw [forkFailed_silent (reachable_tallied h) rfl] at hone
  cases hone

end Lichee.Core

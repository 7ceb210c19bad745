import Lichee.Core.Message
import Mathlib.Data.List.Nodup
import Mathlib.Logic.Function.Basic
import Mathlib.Logic.Relation

/- The launcher, the testcases it starts and core at the other end of the command pipe
   (launcher.c, and the message loop of core.c). The pipe is a FIFO of lines, each written
   at once. Every system call of the launcher is a step of its own, and what `fork` and
   `execvp` answer, what a testcase writes and when it exits is left to the run.

   `no_wait_task_list` and the child the launcher is busy with make up the children still
   to be waited for (`pending`); every child that was started and not yet reaped is one of
   them (`Waits`), so none is left when the completion line is written. A step of core is on a
   line, its loop on bytes: `listen_coreStep` says that the two agree. The launcher's
   allocations succeed, and `waitpid` is not interrupted. -/
namespace Lichee.Core
open Base View

/-- An index of the test table. -/
abbrev Entry (T : TestTable) : Type := Fin T.entries.length

/-- Where the launcher is. -/
inductive Pc (T : TestTable) where
  /-- At the head of "run all test cases", with `i`. -/
  | start (i : Nat)
  /-- Behind the `fork` of entry `i`, in the parent. -/
  | forked (i : Entry T)
  /-- In `wait_completion` of entry `i`. -/
  | waiting (i : Entry T)
  /-- At the head of "wait no wait task completion", with the rest of the list. -/
  | drain (tasks : List (Entry T))
  | finished
  /-- "no test cases will be launched" -/
  | refused

inductive Life where
  | alive
  | exited
  | reaped
  deriving DecidableEq, Repr

/-- What has become of an entry: not looked at yet, without a program, not forked, or a
child, with what `execvp` answered it and the lines it has written. -/
inductive Proc where
  | unvisited
  | noProgram
  | forkFailed
  | child (exec : Option Bool) (life : Life) (sent : List (List UInt8))
  deriving DecidableEq, Repr

/-- A child that has not been waited for. -/
def Proc.unreaped : Proc → Bool
  | .child _ life _ => life != .reaped
  | _ => false

/-- The lines a child has written. -/
def Proc.sent : Proc → List (List UInt8)
  | .child _ _ sent => sent
  | _ => []

inductive Writer (T : TestTable) where
  | launcher
  | child (i : Entry T)
  deriving DecidableEq

/-- The launcher, its children, the pipe, and core with the lines it has read. -/
structure Sys (T : TestTable) where
  pc : Pc T
  noWaitTaskList : List (Entry T)
  proc : Entry T → Proc
  pipe : List (Writer T × List UInt8)
  consumed : List (Writer T × List UInt8)
  updates : List ViewUpdate
  left : Bool

variable {T : TestTable}

/-- The line `fprintf(cmd_pipe, "%d 1\n", info->id)` writes. -/
def failLine (i : Entry T) : List UInt8 := SEND_CMD_PIPE_FAIL (T.entries.get i).id.toNat

/-- The line `fprintf(cmd_pipe, "%s\n", TEST_COMPLETION)` writes. -/
def completionLine : List UInt8 := TEST_COMPLETION ++ [chLf]

/-- "if (total_testcases == 0)" -/
def launch (T : TestTable) : Sys T where
  pc := if T.entries.length = 0 then .refused else .start 0
  noWaitTaskList := []
  proc := fun _ => .unvisited
  pipe := []
  consumed := []
  updates := []
  left := false

/-- `info[i].binary[0] == '\0'` -/
def NoProgram (info : TestcaseBaseInfo) : Prop := info.binary.headD 0 = 0

/-- "we only wait auto test case due to system performance" -/
def WaitsAtOnce (info : TestcaseBaseInfo) : Prop :=
  info.runType = WAIT_COMPLETION ∧ info.category = CATEGORY_AUTO

instance (info : TestcaseBaseInfo) : Decidable (NoProgram info) :=
  inferInstanceAs (Decidable (_ = _))

instance (info : TestcaseBaseInfo) : Decidable (WaitsAtOnce info) :=
  inferInstanceAs (Decidable (_ ∧ _))

/-- A step of the launcher. -/
inductive LaunchStep (T : TestTable) : Sys T → Sys T → Prop
  | noProgram {s} (i : Entry T) (hpc : s.pc = .start i) (hbin : NoProgram (T.entries.get i)) :
    LaunchStep T s { s with
      pc := .start (i + 1), proc := Function.update s.proc i .noProgram
      pipe := s.pipe ++ [(.launcher, failLine i)] }
  -- `run_one_testcase` returns -1, and its caller does not look at that
  | forkFails {s} (i : Entry T) (hpc : s.pc = .start i) (hbin : ¬ NoProgram (T.entries.get i)) :
    LaunchStep T s { s with
      pc := .start (i + 1), proc := Function.update s.proc i .forkFailed }
  | fork {s} (i : Entry T) (hpc : s.pc = .start i) (hbin : ¬ NoProgram (T.entries.get i)) :
    LaunchStep T s { s with
      pc := .forked i, proc := Function.update s.proc i (.child none .alive []) }
  | wait {s} (i : Entry T) (hpc : s.pc = .forked i) (hw : WaitsAtOnce (T.entries.get i)) :
    LaunchStep T s { s with pc := .waiting i }
  | noWait {s} (i : Entry T) (hpc : s.pc = .forked i) (hw : ¬ WaitsAtOnce (T.entries.get i)) :
    LaunchStep T s { s with
      pc := .start (i + 1), noWaitTaskList := i :: s.noWaitTaskList }
  | waited {s} (i : Entry T) (exec sent) (hpc : s.pc = .waiting i)
      (hc : s.proc i = .child exec .exited sent) :
    LaunchStep T s { s with
      pc := .start (i + 1), proc := Function.update s.proc i (.child exec .reaped sent) }
  | allStarted {s} (i : Nat) (hpc : s.pc = .start i) (hi : T.entries.length ≤ i) :
    LaunchStep T s { s with pc := .drain s.noWaitTaskList }
  | drained {s} (i : Entry T) (tasks exec sent) (hpc : s.pc = .drain (i :: tasks))
      (hc : s.proc i = .child exec .exited sent) :
    LaunchStep T s { s with
      pc := .drain tasks, proc := Function.update s.proc i (.child exec .reaped sent) }
  | complete {s} (hpc : s.pc = .drain []) :
    LaunchStep T s { s with
      pc := .finished, pipe := s.pipe ++ [(.launcher, completionLine)] }

/-- A step of a child. A testcase that runs writes the reports that `reports` allows its entry, in
lines that fit core's buffer. -/
inductive ChildStep (T : TestTable) (reports : Entry T → Report T → Prop) : Sys T → Sys T → Prop
  | exec {s} (i : Entry T) (hc : s.proc i = .child none .alive []) :
    ChildStep T reports s { s with
      proc := Function.update s.proc i (.child (some true) .alive []) }
  | execFails {s} (i : Entry T) (hc : s.proc i = .child none .alive []) :
    ChildStep T reports s { s with
      proc := Function.update s.proc i (.child (some false) .alive [failLine i])
      pipe := s.pipe ++ [(.child i, failLine i)] }
  | report {s} (i : Entry T) (sent) (r : Report T)
      (hc : s.proc i = .child (some true) .alive sent) (hr : reports i r)
      (hshort : r.line.length ≤ 127) :
    ChildStep T reports s { s with
      proc := Function.update s.proc i (.child (some true) .alive (sent ++ [r.line]))
      pipe := s.pipe ++ [(.child i, r.line)] }
  | exit {s} (i : Entry T) (ran sent) (hc : s.proc i = .child (some ran) .alive sent) :
    ChildStep T reports s { s with
      proc := Function.update s.proc i (.child (some ran) .exited sent) }

/-- A turn of core's message loop on the line at the front of the pipe. -/
inductive CoreStep (T : TestTable) : Sys T → Sys T → Prop
  | read {s} (w line rest u) (hleft : s.left = false) (hp : s.pipe = (w, line) :: rest)
      (hc : command T (cstr line) = .ok u) :
    CoreStep T s { s with
      pipe := rest, consumed := s.consumed ++ [(w, line)], updates := s.updates ++ u.toList }
  | leave {s} (w line rest) (hleft : s.left = false) (hp : s.pipe = (w, line) :: rest)
      (hc : command T (cstr line) = .error .completion) :
    CoreStep T s { s with
      pipe := rest, consumed := s.consumed ++ [(w, line)], left := true }

/-- A step of any of them. -/
inductive Step (T : TestTable) (reports : Entry T → Report T → Prop) (s t : Sys T) : Prop
  | launcher (h : LaunchStep T s t)
  | child (h : ChildStep T reports s t)
  | core (h : CoreStep T s t)

/-- The states of the runs. -/
def Reachable (T : TestTable) (reports : Entry T → Report T → Prop) : Sys T → Prop :=
  Relation.ReflTransGen (Step T reports) (launch T)

namespace Sys

/-- Every line written so far, in the order of the pipe. -/
def written (s : Sys T) : List (Writer T × List UInt8) := s.consumed ++ s.pipe

/-- The completion line, once the launcher has finished. -/
def ending (s : Sys T) : List (Writer T × List UInt8) :=
  match s.pc with
  | .finished => [(.launcher, completionLine)]
  | _ => []

/-- The children the launcher still has to wait for. -/
def pending (s : Sys T) : List (Entry T) :=
  match s.pc with
  | .start _ => s.noWaitTaskList
  | .forked i => i :: s.noWaitTaskList
  | .waiting i => i :: s.noWaitTaskList
  | .drain tasks => tasks
  | .finished => []
  | .refused => []

end Sys

/-- The lines of one writer. -/
def linesOf (w : Writer T) (l : List (Writer T × List UInt8)) : List (List UInt8) :=
  (l.filter (·.1 = w)).map Prod.snd

/-- The first entry the launcher has not looked at. -/
def Pc.cursor : Pc T → Nat
  | .start i => i
  | .forked i => i + 1
  | .waiting i => i + 1
  | .drain _ => T.entries.length
  | .finished => T.entries.length
  | .refused => 0

/-- The child the launcher waits for. -/
def Pc.awaits : Pc T → Option (Entry T)
  | .waiting i => some i
  | .drain (i :: _) => some i
  | _ => none

/-- A bound on the steps the launcher has left. -/
def Sys.turns (s : Sys T) : Nat :=
  match s.pc with
  | .start i => 3 * (T.entries.length - i) + s.noWaitTaskList.length + 2
  | .forked i => 3 * (T.entries.length - i) + s.noWaitTaskList.length + 1
  | .waiting i => 3 * (T.entries.length - i) + s.noWaitTaskList.length
  | .drain tasks => tasks.length + 1
  | .finished => 0
  | .refused => 0

/-! ## The lines of the pipe -/

@[simp] theorem linesOf_nil (w : Writer T) : linesOf w [] = [] := rfl

theorem linesOf_append (w : Writer T) (l l' : List (Writer T × List UInt8)) :
    linesOf w (l ++ l') = linesOf w l ++ linesOf w l' := by
  simp [linesOf]

theorem linesOf_self (w : Writer T) (line : List UInt8) : linesOf w [(w, line)] = [line] := by
  simp [linesOf]

theorem linesOf_other {w w' : Writer T} (h : w' ≠ w) (line : List UInt8) :
    linesOf w [(w', line)] = [] := by
  simp [linesOf, h]

/-- The report that an entry could not be run. -/
def failReport (i : Entry T) : Report T where
  id := i
  fail := true
  exdata := none
  noLf := nofun
  noNul := nofun

theorem failLine_eq (i : Entry T) : failLine i = (failReport i).line := by
  have hid : (T.entries.get i).id.toNat = i := by
    have := T.ids i i.isLt
    simp only [List.get_eq_getElem, this, Int.toNat_natCast]
  rw [failLine, hid]
  rfl

/-- A line core reads in one piece and makes an update of. -/
def ReportLine (T : TestTable) (line : List UInt8) : Prop :=
  ∃ r : Report T, line = r.line ∧ r.line.length ≤ 127

theorem failLine_report (i : Entry T) : ReportLine T (failLine i) := by
  refine ⟨failReport i, failLine_eq i, ?_⟩
  have := (failReport i).head_length
  rw [Report.line_eq]
  simp only [failReport, Report.body, List.length_append, List.length_cons, List.length_nil]
  simp only [failReport] at this
  omega

theorem Report.line_nul (r : Report T) : 0 ∉ r.line := by
  rw [Report.line_eq]
  intro h
  rcases List.mem_append.mp h with h | h
  · exact r.head_plain.2 h
  · rcases List.mem_append.mp h with h | h
    · exact r.body_plain.2 h
    · cases List.mem_singleton.mp h

/-- Core makes an update of a report line. -/
theorem ReportLine.command {line : List UInt8} (h : ReportLine T line) :
    ∃ u, command T (cstr line) = .ok (some u) := by
  obtain ⟨r, rfl, -⟩ := h
  rw [cstr_self r.line_nul, Report.line_eq]
  exact ⟨_, command_head r r.body_plain.1 (fun c => r.body_head) (.inr rfl)⟩

/-- Core leaves its loop at the completion line. -/
theorem command_completionLine : command T (cstr completionLine) = .error .completion := rfl

theorem not_completion_of_report {line : List UInt8} (h : ReportLine T line) :
    line ≠ completionLine := by
  rintro rfl
  obtain ⟨u, hu⟩ := h.command
  rw [command_completionLine] at hu
  cases hu

/-! ## The children that are waited for -/

/-- `pending` lists each unreaped child once, and the entries from `cursor` on are
untouched. -/
structure Waits (s : Sys T) : Prop where
  nodup : s.pending.Nodup
  pending : ∀ i, i ∈ s.pending ↔ (s.proc i).unreaped = true
  later : ∀ i : Entry T, s.pc.cursor ≤ i → s.proc i = .unvisited
  earlier : ∀ i : Entry T, (i : Nat) < s.pc.cursor → s.proc i ≠ .unvisited

theorem waits_launch (T : TestTable) : Waits (launch T) := by
  have hpend : (launch T).pending = [] := by
    unfold Sys.pending launch
    by_cases h : T.entries.length = 0
    · simp only [if_pos h]
    · simp only [if_neg h]
  refine ⟨?_, ?_, fun _ _ => rfl, ?_⟩
  · rw [hpend]
    exact List.nodup_nil
  · intro i
    rw [hpend]
    exact ⟨nofun, nofun⟩
  · intro i hi
    have hcur : (launch T).pc.cursor = 0 := by
      unfold launch
      by_cases h : T.entries.length = 0
      · simp only [if_pos h, Pc.cursor]
      · simp only [if_neg h, Pc.cursor]
    omega

/-- To show of an updated table of processes what holds of each of them. -/
theorem proc_update (f : Entry T → Proc) (i : Entry T) (p : Proc) {P : Entry T → Proc → Prop}
    (hi : P i p) (ho : ∀ j, j ≠ i → P j (f j)) (j : Entry T) :
    P j (Function.update f i p j) := by
  by_cases h : j = i
  · subst h
    rw [Function.update_self]
    exact hi
  · rw [Function.update_of_ne h]
    exact ho j h

namespace Waits
variable {s t : Sys T}

/-- Nothing happened to the children. -/
theorem still (hs : Waits s) (hproc : t.proc = s.proc) (hpend : t.pending = s.pending)
    (hcur : t.pc.cursor = s.pc.cursor ∨
      T.entries.length ≤ s.pc.cursor ∧ T.entries.length ≤ t.pc.cursor) : Waits t := by
  obtain ⟨hnd, hin, hlater, hearlier⟩ := hs
  refine ⟨?_, ?_, ?_, ?_⟩
  · rw [hpend]
    exact hnd
  · intro i
    rw [hpend, hproc]
    exact hin i
  · intro i hi
    rw [hproc]
    apply hlater i
    have := i.isLt
    omega
  · intro i hi
    rw [hproc]
    apply hearlier i
    have := i.isLt
    omega

/-- An entry with a process is behind the cursor. -/
theorem visited (hs : Waits s) {i : Entry T} (hi : s.proc i ≠ .unvisited) :
    (i : Nat) < s.pc.cursor := by
  by_contra hlt
  exact hi (hs.later i (not_lt.mp hlt))

/-- One process changed, of an entry behind the cursor. -/
theorem change (hs : Waits s) {i : Entry T} {p : Proc}
    (hproc : t.proc = Function.update s.proc i p) (hnodup : t.pending.Nodup)
    (hi : i ∈ t.pending ↔ p.unreaped = true)
    (hothers : ∀ j, j ≠ i → (j ∈ t.pending ↔ j ∈ s.pending)) (hp : p ≠ .unvisited)
    (hcur : (i : Nat) < t.pc.cursor)
    (hcursors : ∀ j : Entry T, j ≠ i → (t.pc.cursor ≤ j ↔ s.pc.cursor ≤ j)) : Waits t := by
  refine ⟨hnodup, ?_, ?_, ?_⟩
  · rw [hproc]
    apply proc_update s.proc i p (P := fun j p => j ∈ t.pending ↔ p.unreaped = true) hi
    intro j hj
    exact (hothers j hj).trans (hs.pending j)
  · rw [hproc]
    refine proc_update s.proc i p (P := fun j p => t.pc.cursor ≤ j → p = .unvisited) ?_ ?_
    · intro h
      omega
    · intro j hj h
      exact hs.later j ((hcursors j hj).mp h)
  · rw [hproc]
    refine proc_update s.proc i p (P := fun j p => (j : Nat) < t.pc.cursor → p ≠ .unvisited) ?_ ?_
    · intro _
      exact hp
    · intro j hj h
      apply hs.earlier j
      have := hcursors j hj
      omega

/-- The entry at the cursor has been looked at. -/
theorem visit (hs : Waits s) {i : Entry T} {p : Proc} (hpc : s.pc = .start i)
    (hp : p ≠ .unvisited) (hproc : t.proc = Function.update s.proc i p)
    (hpend : t.pending = if p.unreaped then i :: s.pending else s.pending)
    (hcur : t.pc.cursor = i + 1) : Waits t := by
  have hcur' : s.pc.cursor = i := by rw [hpc]; rfl
  -- nobody has been started for the entry, so nobody is waited for
  have hnot : i ∉ s.pending := by
    rw [hs.pending, hs.later i (by omega)]
    exact nofun
  apply hs.change hproc
  · rw [hpend]
    split
    · exact List.nodup_cons.mpr ⟨hnot, hs.nodup⟩
    · exact hs.nodup
  · rw [hpend]
    cases hpu : p.unreaped
    · simpa using hnot
    · simp
  · intro j hj
    rw [hpend]
    split
    · simp [hj]
    · rfl
  · exact hp
  · omega
  · intro j hj
    have : (j : Nat) ≠ i := fun h => hj (Fin.ext h)
    omega

/-- A child that has not been reaped went on. -/
theorem act (hs : Waits s) {i : Entry T} {p : Proc} (hi : (s.proc i).unreaped = true)
    (hp : p.unreaped = true) (hproc : t.proc = Function.update s.proc i p)
    (hpend : t.pending = s.pending) (hpc : t.pc = s.pc) : Waits t := by
  have hvisited : (i : Nat) < s.pc.cursor := by
    apply hs.visited
    intro h
    rw [h] at hi
    cases hi
  apply hs.change hproc
  · rw [hpend]
    exact hs.nodup
  · rw [hpend, hs.pending, hi, hp]
  · intro j _
    rw [hpend]
  · rintro rfl
    cases hp
  · rw [hpc]
    exact hvisited
  · intro j _
    rw [hpc]

/-- The child at the head of the list was reaped. -/
theorem reap (hs : Waits s) {i : Entry T} {rest : List (Entry T)} {exec life sent}
    (hc : s.proc i = .child exec life sent) (hpend : s.pending = i :: rest)
    (hproc : t.proc = Function.update s.proc i (.child exec .reaped sent))
    (hpend' : t.pending = rest) (hcur : t.pc.cursor = s.pc.cursor) : Waits t := by
  have hvisited : (i : Nat) < s.pc.cursor := hs.visited (by rw [hc]; exact nofun)
  have hnodup := hs.nodup
  rw [hpend] at hnodup
  obtain ⟨hnot, hnodup⟩ := List.nodup_cons.mp hnodup
  apply hs.change hproc
  · rw [hpend']
    exact hnodup
  · rw [hpend']
    simpa [Proc.unreaped] using hnot
  · intro j hj
    rw [hpend', hpend]
    simp [hj]
  · exact nofun
  · rw [hcur]
    exact hvisited
  · intro j _
    rw [hcur]

end Waits

theorem waits_launchStep {s t : Sys T} (h : LaunchStep T s t) (hs : Waits s) : Waits t := by
  cases h with
  | noProgram i hpc hbin =>
    exact hs.visit (p := .noProgram) hpc nofun rfl (by simp [Sys.pending, hpc, Proc.unreaped]) rfl
  | forkFails i hpc hbin =>
    exact hs.visit (p := .forkFailed) hpc nofun rfl (by simp [Sys.pending, hpc, Proc.unreaped]) rfl
  | fork i hpc hbin =>
    exact hs.visit (p := .child none .alive []) hpc nofun rfl
      (by simp [Sys.pending, hpc, Proc.unreaped]) rfl
  | wait i hpc hw =>
    exact hs.still rfl (by simp [Sys.pending, hpc]) (.inl (by simp [hpc, Pc.cursor]))
  | noWait i hpc hw =>
    exact hs.still rfl (by simp [Sys.pending, hpc]) (.inl (by simp [hpc, Pc.cursor]))
  | waited i exec sent hpc hc =>
    exact hs.reap hc (by simp [Sys.pending, hpc]) rfl rfl (by simp [hpc, Pc.cursor])
  | allStarted i hpc hi =>
    refine hs.still rfl (by simp [Sys.pending, hpc]) (.inr ⟨?_, le_refl _⟩)
    rw [hpc]
    exact hi
  | drained i tasks exec sent hpc hc =>
    exact hs.reap hc (by simp [Sys.pending, hpc]) rfl rfl (by simp [hpc, Pc.cursor])
  | complete hpc =>
    exact hs.still rfl (by simp [Sys.pending, hpc]) (.inl (by simp [hpc, Pc.cursor]))

theorem waits_childStep {reports} {s t : Sys T} (h : ChildStep T reports s t) (hs : Waits s) :
    Waits t := by
  cases h with
  | exec i hc => exact hs.act (i := i) (by rw [hc]; rfl) rfl rfl rfl rfl
  | execFails i hc => exact hs.act (i := i) (by rw [hc]; rfl) rfl rfl rfl rfl
  | report i sent r hc hr hshort => exact hs.act (i := i) (by rw [hc]; rfl) rfl rfl rfl rfl
  | exit i ran sent hc => exact hs.act (i := i) (by rw [hc]; rfl) rfl rfl rfl rfl

theorem waits_coreStep {s t : Sys T} (h : CoreStep T s t) (hs : Waits s) : Waits t := by
  cases h with
  | read w line rest u hleft hp hc => exact hs.still rfl rfl (.inl rfl)
  | leave w line rest hleft hp hc => exact hs.still rfl rfl (.inl rfl)

theorem waits_step {reports} {s t : Sys T} (h : Step T reports s t) (hs : Waits s) :
    Waits t := by
  cases h with
  | launcher h => exact waits_launchStep h hs
  | child h => exact waits_childStep h hs
  | core h => exact waits_coreStep h hs

/-- A child is unreaped only while the launcher has not finished. -/
theorem Waits.not_finished {s : Sys T} (hs : Waits s) {i : Entry T}
    (hi : (s.proc i).unreaped = true) : s.pc ≠ .finished := by
  intro hpc
  have hmem := (hs.pending i).mpr hi
  simp only [Sys.pending, hpc] at hmem
  cases hmem

/-! ## What the pipe carries -/

/-- A child's lines are in the pipe in its order, the completion line is the last line of
all, and core has left only behind it. -/
structure Carries (s : Sys T) : Prop where
  sent : ∀ i, linesOf (.child i) s.written = (s.proc i).sent
  lines : ∃ l, s.written = l ++ s.ending ∧ ∀ p ∈ l, ReportLine T p.2
  left : s.left = true → s.pc = .finished ∧ s.pipe = []

theorem Sys.ending_of_ne {s : Sys T} (h : s.pc ≠ .finished) : s.ending = [] := by
  unfold ending
  split
  · next hpc => exact absurd hpc h
  · rfl

theorem Sys.ending_cases (s : Sys T) :
    s.ending = [] ∨ s.pc = .finished ∧ s.ending = [(.launcher, completionLine)] := by
  by_cases h : s.pc = .finished
  · exact .inr ⟨h, by rw [ending, h]⟩
  · exact .inl (ending_of_ne h)

theorem carries_launch (T : TestTable) : Carries (launch T) := by
  refine ⟨fun _ => rfl, ⟨[], ?_, nofun⟩, nofun⟩
  have hpc : (launch T).pc ≠ .finished := by
    unfold launch
    by_cases h : T.entries.length = 0
    · simp only [if_pos h]
      exact nofun
    · simp only [if_neg h]
      exact nofun
  rw [Sys.ending_of_ne hpc]
  rfl

/-- The launcher or a child wrote the lines `new`, and nothing else happened to the pipe. -/
theorem Carries.write {s t : Sys T} (hs : Carries s) (new : List (Writer T × List UInt8))
    (hpc : s.pc ≠ .finished) (hleft : t.left = s.left) (hcons : t.consumed = s.consumed)
    (hpipe : t.pipe = s.pipe ++ new)
    (hsent : ∀ i, (t.proc i).sent = (s.proc i).sent ++ linesOf (.child i) new)
    (hnew : ∃ l, new = l ++ t.ending ∧ ∀ p ∈ l, ReportLine T p.2) : Carries t := by
  have hwritten : t.written = s.written ++ new := by
    rw [Sys.written, Sys.written, hcons, hpipe, List.append_assoc]
  refine ⟨?_, ?_, ?_⟩
  · intro i
    rw [hwritten, linesOf_append, hs.sent, hsent]
  · obtain ⟨l, hl, hrep⟩ := hs.lines
    obtain ⟨l', rfl, hrep'⟩ := hnew
    rw [Sys.ending_of_ne hpc, List.append_nil] at hl
    refine ⟨l ++ l', by rw [hwritten, hl, List.append_assoc], ?_⟩
    intro p hp
    rcases List.mem_append.mp hp with hp | hp
    · exact hrep p hp
    · exact hrep' p hp
  · intro h
    rw [hleft] at h
    exact absurd (hs.left h).1 hpc

/-- As `write`, with nothing written. -/
theorem Carries.silent {s t : Sys T} (hs : Carries s) (hpc : s.pc ≠ .finished)
    (hpc' : t.pc ≠ .finished) (hleft : t.left = s.left) (hcons : t.consumed = s.consumed)
    (hpipe : t.pipe = s.pipe) (hsent : ∀ i, (t.proc i).sent = (s.proc i).sent) : Carries t := by
  refine hs.write [] hpc hleft hcons ?_ ?_ ⟨[], ?_, nofun⟩
  · rw [hpipe, List.append_nil]
  · intro i
    rw [hsent, linesOf_nil, List.append_nil]
  · rw [Sys.ending_of_ne hpc']
    rfl

/-- The lines of the children when only those of entry `i` may have changed. -/
theorem sent_update {f : Entry T → Proc} {i : Entry T} {p : Proc}
    {new : List (Writer T × List UInt8)} (hi : p.sent = (f i).sent ++ linesOf (.child i) new)
    (ho : ∀ j, j ≠ i → linesOf (.child j) new = []) (j : Entry T) :
    (Function.update f i p j).sent = (f j).sent ++ linesOf (.child j) new := by
  refine proc_update f i p
    (P := fun j p => p.sent = (f j).sent ++ linesOf (.child j) new) hi ?_ j
  intro j hj
  rw [ho j hj, List.append_nil]

theorem sent_same {f : Entry T → Proc} {i : Entry T} {p : Proc} (hi : p.sent = (f i).sent)
    (j : Entry T) : (Function.update f i p j).sent = (f j).sent := by
  have hi' : p.sent = (f i).sent ++ linesOf (.child i) ([] : List (Writer T × List UInt8)) := by
    rw [hi, linesOf_nil, List.append_nil]
  rw [sent_update hi' (fun _ _ => rfl) j, linesOf_nil, List.append_nil]

theorem carries_launchStep {s t : Sys T} (h : LaunchStep T s t) (hs : Carries s)
    (hw : Waits s) : Carries t := by
  -- the entry at the cursor has not sent anything
  have hvisit : ∀ {i : Entry T}, s.pc = .start i → (s.proc i).sent = [] := by
    intro i hpc
    rw [hw.later i (by rw [hpc]; exact le_refl _)]
    rfl
  cases h with
  | noProgram i hpc hbin =>
    refine hs.write [(.launcher, failLine i)] (by simp [hpc]) rfl rfl rfl ?_
      ⟨[(.launcher, failLine i)], rfl, ?_⟩
    · exact sent_update (by rw [hvisit hpc]; rfl) fun j _ => rfl
    · intro p hp
      rw [List.mem_singleton.mp hp]
      exact failLine_report i
  | forkFails i hpc hbin =>
    exact hs.silent (by simp [hpc]) nofun rfl rfl rfl (sent_same (hvisit hpc).symm)
  | fork i hpc hbin =>
    exact hs.silent (by simp [hpc]) nofun rfl rfl rfl (sent_same (hvisit hpc).symm)
  | wait i hpc hwait => exact hs.silent (by simp [hpc]) nofun rfl rfl rfl fun _ => rfl
  | noWait i hpc hwait => exact hs.silent (by simp [hpc]) nofun rfl rfl rfl fun _ => rfl
  | waited i exec sent hpc hc =>
    exact hs.silent (by simp [hpc]) nofun rfl rfl rfl (sent_same (by rw [hc]; rfl))
  | allStarted i hpc hi => exact hs.silent (by simp [hpc]) nofun rfl rfl rfl fun _ => rfl
  | drained i tasks exec sent hpc hc =>
    exact hs.silent (by simp [hpc]) nofun rfl rfl rfl (sent_same (by rw [hc]; rfl))
  | complete hpc =>
    exact hs.write [(.launcher, completionLine)] (by simp [hpc]) rfl rfl rfl
      (fun j => (List.append_nil _).symm) ⟨[], rfl, nofun⟩

theorem linesOf_child_other {i j : Entry T} (h : j ≠ i) (line : List UInt8) :
    linesOf (.child j) [((.child i : Writer T), line)] = [] :=
  linesOf_other (by rintro ⟨⟩; exact h rfl) line

/-- A child wrote a report line. -/
theorem Carries.childWrite {s : Sys T} (hs : Carries s) (hpc : s.pc ≠ .finished) {i : Entry T}
    {exec life sent} {exec' : Option Bool} {line : List UInt8}
    (hc : s.proc i = .child exec life sent) (hline : ReportLine T line) :
    Carries { s with
      proc := Function.update s.proc i (.child exec' .alive (sent ++ [line]))
      pipe := s.pipe ++ [(.child i, line)] } := by
  refine hs.write [(.child i, line)] hpc rfl rfl rfl ?_ ⟨[(.child i, line)], ?_, ?_⟩
  · refine sent_update ?_ fun j hj => linesOf_child_other hj line
    rw [hc, linesOf_self]
    rfl
  · rw [Sys.ending_of_ne (by exact hpc), List.append_nil]
  · intro p hp
    rw [List.mem_singleton.mp hp]
    exact hline

theorem carries_childStep {reports} {s t : Sys T} (h : ChildStep T reports s t)
    (hs : Carries s) (hw : Waits s) : Carries t := by
  -- no child lives on behind the completion line
  have hpc : ∀ {i : Entry T} {exec sent}, s.proc i = .child exec .alive sent →
      s.pc ≠ .finished := by
    intro i exec sent hc
    exact hw.not_finished (i := i) (by rw [hc]; rfl)
  cases h with
  | exec i hc =>
    exact hs.silent (hpc hc) (hpc hc) rfl rfl rfl (sent_same (by rw [hc]; rfl))
  | execFails i hc => exact hs.childWrite (hpc hc) hc (failLine_report i)
  | report i sent r hc hr hshort => exact hs.childWrite (hpc hc) hc ⟨r, rfl, hshort⟩
  | exit i ran sent hc =>
    exact hs.silent (hpc hc) (hpc hc) rfl rfl rfl (sent_same (by rw [hc]; rfl))

/-- A line that is no report is the completion line, and nothing is behind it. -/
theorem Carries.completion {s : Sys T} (hs : Carries s) {w line rest}
    (hp : s.pipe = (w, line) :: rest) (hline : ¬ ReportLine T line) :
    s.pc = .finished ∧ line = completionLine ∧ rest = [] := by
  obtain ⟨l, hl, hrep⟩ := hs.lines
  have hnot : (w, line) ∉ l := fun h => hline (hrep _ h)
  rw [Sys.written, hp] at hl
  have hmem : (w, line) ∈ l ++ s.ending := by
    rw [← hl]
    simp
  rcases s.ending_cases with he | ⟨hpc, he⟩
  · rw [he, List.append_nil] at hmem
    exact absurd hmem hnot
  · rw [he] at hl hmem
    have heq : (w, line) = (.launcher, completionLine) := by
      rcases List.mem_append.mp hmem with h | h
      · exact absurd h hnot
      · exact List.mem_singleton.mp h
    cases heq
    refine ⟨hpc, rfl, ?_⟩
    rcases List.eq_nil_or_concat rest with hnil | ⟨r, z, rfl⟩
    · exact hnil
    · -- a line behind it would have to be the last one
      have hsnoc : (s.consumed ++ (.launcher, completionLine) :: r) ++ [z] =
          l ++ [(.launcher, completionLine)] := by simpa using hl
      have hcut := List.append_inj_left' hsnoc rfl
      rw [← hcut] at hnot
      exact absurd (by simp) hnot

/-- Core took a line: what has been written is the same. -/
theorem Carries.taken {s t : Sys T} (hs : Carries s) (hproc : t.proc = s.proc)
    (hpc : t.pc = s.pc) (hwritten : t.written = s.written)
    (hleft : t.left = true → t.pc = .finished ∧ t.pipe = []) : Carries t := by
  refine ⟨?_, ?_, hleft⟩
  · intro i
    rw [hwritten, hproc]
    exact hs.sent i
  · have hending : t.ending = s.ending := by rw [Sys.ending, Sys.ending, hpc]
    rw [hwritten, hending]
    exact hs.lines

theorem carries_coreStep {s t : Sys T} (h : CoreStep T s t) (hs : Carries s) : Carries t := by
  have hwritten : ∀ {w line rest}, s.pipe = (w, line) :: rest →
      (s.consumed ++ [(w, line)]) ++ rest = s.written := by
    intro w line rest hp
    rw [Sys.written, hp]
    simp
  cases h with
  | read w line rest u hleft hp hc =>
    refine hs.taken rfl rfl (hwritten hp) ?_
    intro h
    rw [show s.left = true from h] at hleft
    cases hleft
  | leave w line rest hleft hp hc =>
    -- core only leaves at the completion line, and behind it there is nothing
    have hnot : ¬ ReportLine T line := by
      intro hrep
      obtain ⟨u, hu⟩ := hrep.command
      rw [hc] at hu
      cases hu
    obtain ⟨hpc, -, hrest⟩ := hs.completion hp hnot
    refine hs.taken rfl rfl (hwritten hp) ?_
    intro _
    exact ⟨hpc, hrest⟩

theorem carries_step {reports} {s t : Sys T} (h : Step T reports s t) (hs : Carries s)
    (hw : Waits s) : Carries t := by
  cases h with
  | launcher h => exact carries_launchStep h hs hw
  | child h => exact carries_childStep h hs hw
  | core h => exact carries_coreStep h hs

/-- Both invariants hold throughout every run. -/
theorem reachable_inv {reports} {s : Sys T} (h : Reachable T reports s) :
    Waits s ∧ Carries s := by
  induction h with
  | refl => exact ⟨waits_launch T, carries_launch T⟩
  | tail _ hstep ih => exact ⟨waits_step hstep ih.1, carries_step hstep ih.2 ih.1⟩

/-! ## Nothing is lost at shutdown -/

/-- What is claimed of every state of a run. `once` and `waited` speak of the completion
line, `goesOn`, `fewer` and `same` say that the launcher gets there once its children have
exited, and `hears` that core reads on until it is there. -/
structure NothingLost (reports : Entry T → Report T → Prop) (s : Sys T) : Prop where
  once : (s.pc ≠ .finished → completionLine ∉ s.written.map Prod.snd) ∧
    (s.pc = .finished → (s.written.map Prod.snd).count completionLine = 1)
  waited : s.pc = .finished → ∀ i exec life sent, s.proc i = .child exec life sent →
    life = .reaped
  goesOn : s.pc ≠ .finished → (∃ t, LaunchStep T s t) ∨
    ∃ i exec sent, s.pc.awaits = some i ∧ s.proc i = .child exec .alive sent
  fewer : ∀ t, LaunchStep T s t → t.turns < s.turns
  same : ∀ t, ChildStep T reports s t ∨ CoreStep T s t → t.turns = s.turns
  hears : s.left = false → s.pipe ≠ [] → ∃ t, CoreStep T s t
  consumed : s.left = true → s.pc = .finished ∧ s.pipe = [] ∧
    ∀ i exec life sent, s.proc i = .child exec life sent →
      life = .reaped ∧ linesOf (.child i) s.consumed = sent

theorem Carries.once {s : Sys T} (hs : Carries s) :
    (s.pc ≠ .finished → completionLine ∉ s.written.map Prod.snd) ∧
      (s.pc = .finished → (s.written.map Prod.snd).count completionLine = 1) := by
  obtain ⟨l, hl, hrep⟩ := hs.lines
  have hnot : completionLine ∉ l.map Prod.snd := by
    intro h
    obtain ⟨p, hp, heq⟩ := List.mem_map.mp h
    exact not_completion_of_report (hrep p hp) heq
  refine ⟨?_, ?_⟩
  · intro hpc
    rw [hl, Sys.ending_of_ne hpc, List.append_nil]
    exact hnot
  · intro hpc
    have he : s.ending = [(.launcher, completionLine)] := by rw [Sys.ending, hpc]
    rw [hl, he, List.map_append, List.count_append, List.count_eq_zero.mpr hnot]
    simp

theorem Waits.waited {s : Sys T} (hs : Waits s) (hpc : s.pc = .finished) (i : Entry T)
    (exec life sent) (hc : s.proc i = .child exec life sent) : life = .reaped := by
  by_contra hlife
  have hun : (s.proc i).unreaped = true := by
    rw [hc]
    simpa [Proc.unreaped] using hlife
  exact hs.not_finished hun hpc

/-- A pending child has exited, or the launcher has to wait. -/
theorem Waits.exited_or_alive {s : Sys T} (hs : Waits s) {i : Entry T} (hi : i ∈ s.pending) :
    (∃ exec sent, s.proc i = .child exec .exited sent) ∨
      ∃ exec sent, s.proc i = .child exec .alive sent := by
  have hun := (hs.pending i).mp hi
  cases hp : s.proc i with
  | unvisited => rw [hp] at hun; cases hun
  | noProgram => rw [hp] at hun; cases hun
  | forkFailed => rw [hp] at hun; cases hun
  | child exec life sent =>
    cases life with
    | alive => exact .inr ⟨exec, sent, rfl⟩
    | exited => exact .inl ⟨exec, sent, rfl⟩
    | reaped => rw [hp] at hun; cases hun

/-- The launcher goes on, unless it waits for a child that has not exited. -/
theorem Waits.goesOn {s : Sys T} (hs : Waits s) (hpc : s.pc ≠ .finished)
    (href : s.pc ≠ .refused) : (∃ t, LaunchStep T s t) ∨
      ∃ i exec sent, s.pc.awaits = some i ∧ s.proc i = .child exec .alive sent := by
  cases h : s.pc with
  | start i =>
    left
    by_cases hi : i < T.entries.length
    · by_cases hbin : NoProgram (T.entries.get ⟨i, hi⟩)
      · exact ⟨_, .noProgram ⟨i, hi⟩ h hbin⟩
      · exact ⟨_, .fork ⟨i, hi⟩ h hbin⟩
    · exact ⟨_, .allStarted i h (by omega)⟩
  | forked i =>
    left
    by_cases hw : WaitsAtOnce (T.entries.get i)
    · exact ⟨_, .wait i h hw⟩
    · exact ⟨_, .noWait i h hw⟩
  | waiting i =>
    -- `waitpid` returns once the child has exited
    have hmem : i ∈ s.pending := by simp [Sys.pending, h]
    rcases hs.exited_or_alive hmem with ⟨exec, sent, hc⟩ | ⟨exec, sent, hc⟩
    · exact .inl ⟨_, .waited i exec sent h hc⟩
    · exact .inr ⟨i, exec, sent, rfl, hc⟩
  | drain tasks =>
    cases tasks with
    -- nobody is left to wait for: the completion line
    | nil => exact .inl ⟨_, .complete h⟩
    | cons i tasks =>
      have hmem : i ∈ s.pending := by simp [Sys.pending, h]
      rcases hs.exited_or_alive hmem with ⟨exec, sent, hc⟩ | ⟨exec, sent, hc⟩
      · exact .inl ⟨_, .drained i tasks exec sent h hc⟩
      · exact .inr ⟨i, exec, sent, rfl, hc⟩
  | finished => exact absurd h hpc
  | refused => exact absurd h href

theorem turns_launchStep {s t : Sys T} (h : LaunchStep T s t) : t.turns < s.turns := by
  cases h with
  | noProgram i hpc hbin =>
    have := i.isLt
    simp only [Sys.turns, hpc]
    omega
  | forkFails i hpc hbin =>
    have := i.isLt
    simp only [Sys.turns, hpc]
    omega
  | fork i hpc hbin =>
    simp only [Sys.turns, hpc]
    omega
  | wait i hpc hw =>
    simp only [Sys.turns, hpc]
    omega
  | noWait i hpc hw =>
    have := i.isLt
    simp only [Sys.turns, hpc, List.length_cons]
    omega
  | waited i exec sent hpc hc =>
    have := i.isLt
    simp only [Sys.turns, hpc]
    omega
  | allStarted i hpc hi =>
    simp only [Sys.turns, hpc]
    omega
  | drained i tasks exec sent hpc hc =>
    simp only [Sys.turns, hpc, List.length_cons]
    omega
  | complete hpc => simp [Sys.turns, hpc]

/-- The others leave the launcher where it is. -/
theorem turns_others {reports} {s t : Sys T} (h : ChildStep T reports s t ∨ CoreStep T s t) :
    t.turns = s.turns := by
  rcases h with h | h
  · cases h <;> rfl
  · cases h <;> rfl

/-- Core never comes to a line it cannot take. -/
theorem Carries.hears {s : Sys T} (hs : Carries s) (hleft : s.left = false)
    (hpipe : s.pipe ≠ []) : ∃ t, CoreStep T s t := by
  obtain ⟨⟨w, line⟩, rest, hp⟩ := List.exists_cons_of_ne_nil hpipe
  by_cases hline : ReportLine T line
  · obtain ⟨u, hu⟩ := hline.command
    exact ⟨_, .read w line rest (some u) hleft hp hu⟩
  · obtain ⟨-, rfl, -⟩ := hs.completion hp hline
    exact ⟨_, .leave w completionLine rest hleft hp command_completionLine⟩

theorem Carries.consumed {s : Sys T} (hs : Carries s) (hw : Waits s) (hleft : s.left = true) :
    s.pc = .finished ∧ s.pipe = [] ∧ ∀ i exec life sent, s.proc i = .child exec life sent →
      life = .reaped ∧ linesOf (.child i) s.consumed = sent := by
  obtain ⟨hpc, hpipe⟩ := hs.left hleft
  refine ⟨hpc, hpipe, ?_⟩
  intro i exec life sent hc
  refine ⟨hw.waited hpc i exec life sent hc, ?_⟩
  have hsent := hs.sent i
  rw [Sys.written, hpipe, List.append_nil, hc] at hsent
  exact hsent

theorem launch_not_refused (hne : T.entries ≠ []) : (launch T).pc ≠ .refused := by
  have hlen : T.entries.length ≠ 0 := fun h => hne (List.eq_nil_of_length_eq_zero h)
  unfold launch
  simp only [if_neg hlen]
  exact nofun

/-- A launcher that has begun does not refuse. -/
theorem reachable_not_refused {reports} (hne : T.entries ≠ []) {s : Sys T}
    (h : Reachable T reports s) : s.pc ≠ .refused := by
  induction h with
  | refl => exact launch_not_refused hne
  | tail _ hstep ih =>
    cases hstep with
    | launcher h => cases h <;> exact nofun
    | child h => cases h <;> exact ih
    | core h => cases h <;> exact ih

/-- In every state of every run on a table that is not empty, nothing is lost: the launcher
writes the completion line once, after it has waited for its children, and core leaves with
all their lines, in the order of each child. -/
theorem nothing_lost (T : TestTable) (reports : Entry T → Report T → Prop)
    (hne : T.entries ≠ []) (s : Sys T) (h : Reachable T reports s) :
    NothingLost reports s := by
  obtain ⟨hw, hs⟩ := reachable_inv h
  exact {
    once := hs.once
    waited := hw.waited
    goesOn := fun hpc => hw.goesOn hpc (reachable_not_refused hne h)
    fewer := fun t ht => turns_launchStep ht
    same := fun t ht => turns_others ht
    hears := hs.hears
    consumed := hs.consumed hw }

/-- What the macros make of `test_case_id`: a testcase reports under its own id. -/
def ownId (i : Entry T) (r : Report T) : Prop := r.id = i

/-- A run on one testcase, from the fork to the line core leaves at. -/
theorem one_run : ∃ s t : Sys oneTestcase, Reachable oneTestcase ownId s ∧
    CoreStep oneTestcase s t ∧ t.left = true := by
  have h : Reachable oneTestcase ownId (launch oneTestcase) := .refl
  have h := h.tail (.launcher (.fork ⟨0, by decide⟩ rfl (by decide)))
  have h := h.tail (.child (.exec ⟨0, by decide⟩ rfl))
  have h := h.tail (.launcher (.wait ⟨0, by decide⟩ rfl (by decide)))
  have h := h.tail (.child (.report ⟨0, by decide⟩ [] oneByte rfl rfl (by decide)))
  have h := h.tail (.child (.exit ⟨0, by decide⟩ true _ rfl))
  have h := h.tail (.launcher (.waited ⟨0, by decide⟩ _ _ rfl rfl))
  have h := h.tail (.launcher (.allStarted 1 rfl (by decide)))
  have h := h.tail (.launcher (.complete rfl))
  have h := h.tail (.core (.read _ _ _ _ rfl rfl rfl))
  exact ⟨_, _, h, .leave _ _ _ rfl rfl rfl, rfl⟩

theorem nothing_lost_run : ∃ s : Sys oneTestcase, s.left = true ∧ NothingLost ownId s := by
  obtain ⟨s, t, hs, hstep, hleft⟩ := one_run
  exact ⟨t, hleft, nothing_lost oneTestcase ownId nofun t (hs.tail (.core hstep))⟩

/-! ## The pipe as core reads it -/

/-- The bytes in the pipe. -/
def Sys.bytes (s : Sys T) : List UInt8 := (s.pipe.map Prod.snd).flatten

/-- A line is read whole when it fits the buffer. -/
theorem listen_whole {line : List UInt8} (h : ReportLine T line ∨ line = completionLine)
    (rest : List UInt8) (us : List ViewUpdate) :
    listen T ⟨line ++ rest, us⟩ = (command T (cstr line) >>= fun u =>
      .ok ⟨rest, us ++ u.toList⟩) := by
  obtain ⟨y, rfl, hlf, hnul, hlen⟩ : ∃ y, line = y ++ [chLf] ∧ chLf ∉ y ∧ 0 ∉ y ∧
      y.length < 127 := by
    rcases h with ⟨r, rfl, hshort⟩ | rfl
    · rw [Report.line_eq, ← List.append_assoc] at hshort ⊢
      refine ⟨r.head ++ r.body, rfl, ?_, ?_, ?_⟩
      · simp [r.head_plain.1, r.body_plain.1]
      · simp [r.head_plain.2, r.body_plain.2]
      · rw [List.length_append, List.length_singleton] at hshort
        omega
    · exact ⟨TEST_COMPLETION, rfl, by decide, by decide, by decide⟩
  have hcstr : cstr (y ++ [chLf]) = y ++ [chLf] := by
    apply cstr_self
    intro h
    rcases List.mem_append.mp h with h | h
    · exact hnul h
    · cases List.mem_singleton.mp h
  rw [List.append_assoc, hcstr]
  exact listen_line hlf hnul hlen rest us

/-- **In every run a turn of core on the line at the front of the pipe is a turn of its loop on the
bytes in the pipe**, so it never reads over the end of a line or stops within one; and the loop is
left with nothing in the pipe but the completion line. -/
theorem listen_coreStep {reports} {s t : Sys T} (hs : Reachable T reports s)
    (h : CoreStep T s t) :
    listen T ⟨s.bytes, s.updates⟩ =
        (if t.left then .error .completion else .ok ⟨t.bytes, t.updates⟩) ∧
      (t.left = true → s.bytes = completionLine) := by
  have hcarries := (reachable_inv hs).2
  have hbytes : ∀ {w line rest}, s.pipe = (w, line) :: rest →
      s.bytes = line ++ (rest.map Prod.snd).flatten := by
    intro w line rest hp
    simp [Sys.bytes, hp]
  have hline : ∀ {w line rest}, s.pipe = (w, line) :: rest →
      ReportLine T line ∨ line = completionLine ∧ rest = [] := by
    intro w line rest hp
    by_cases h : ReportLine T line
    · exact .inl h
    · exact .inr (hcarries.completion hp h).2
  have hwhole : ∀ {w line rest}, s.pipe = (w, line) :: rest →
      ReportLine T line ∨ line = completionLine := fun hp => (hline hp).imp_right And.left
  cases h with
  | read w line rest u hleft hp hc =>
    rw [hbytes hp, listen_whole (hwhole hp), hc]
    simp [hleft, Sys.bytes]
  | leave w line rest hleft hp hc =>
    rw [hbytes hp, listen_whole (hwhole hp), hc]
    refine ⟨by simp, fun _ => ?_⟩
    rcases hline hp with hreport | ⟨rfl, rfl⟩
    · obtain ⟨u, hu⟩ := hreport.command
      rw [hc] at hu
      cases hu
    · exact List.append_nil _

theorem listen_coreStep_run : ∃ s : Sys oneTestcase,
    listen oneTestcase ⟨s.bytes, s.updates⟩ = .error .completion ∧ s.bytes = completionLine := by
  obtain ⟨s, t, hs, hstep, hleft⟩ := one_run
  obtain ⟨hlisten, hbytes⟩ := listen_coreStep hs hstep
  rw [if_pos hleft] at hlisten
  exact ⟨s, hlisten, hbytes hleft⟩

end Lichee.Core

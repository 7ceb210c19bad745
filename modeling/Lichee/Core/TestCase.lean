import Lichee.Base.Stdio

/- The test table and the lines a testcase reports with (include/test_case.h). Core hands
   the table to the launcher in shared memory, and every testcase writes its result to
   the command pipe under the id of its entry. -/
namespace Lichee.Core
open Base

def CATEGORY_AUTO : Int := 0
def CATEGORY_MANUAL : Int := 1
def WAIT_COMPLETION : Int := 0
def TEST_COMPLETION : List UInt8 := ascii "done"

/-- `struct testcase_base_info`. The arrays are held with their NULs. -/
structure TestcaseBaseInfo where
  name : List UInt8
  displayName : List UInt8
  activated : Int
  binary : List UInt8
  id : Int
  category : Int
  runType : Int
  deriving DecidableEq, Repr

/-- `base_info`: the id of an entry is its index, and `total_testcases` is an `int`. -/
structure TestTable where
  entries : List TestcaseBaseInfo
  ids : ∀ (i : Nat) (h : i < entries.length), entries[i].id = i
  count : entries.length < 2147483648

/-! The lines of the four macros. -/

def SEND_CMD_PIPE_OK (test_case_id : Nat) : List UInt8 :=
  decimal test_case_id ++ ascii " 0\n"

def SEND_CMD_PIPE_OK_EX (test_case_id : Nat) (exdata : List UInt8) : List UInt8 :=
  decimal test_case_id ++ ascii " 0 " ++ exdata ++ ascii "\n"

def SEND_CMD_PIPE_FAIL (test_case_id : Nat) : List UInt8 :=
  decimal test_case_id ++ ascii " 1\n"

def SEND_CMD_PIPE_FAIL_EX (test_case_id : Nat) (exdata : List UInt8) : List UInt8 :=
  decimal test_case_id ++ ascii " 1 " ++ exdata ++ ascii "\n"

/-- A result as a testcase reports it: the id of a table entry, whether the test failed, and
extra data on one line. -/
structure Report (T : TestTable) where
  id : Fin T.entries.length
  fail : Bool
  exdata : Option (List UInt8)
  noLf : ∀ x, exdata = some x → chLf ∉ x
  noNul : ∀ x, exdata = some x → 0 ∉ x

namespace Report
variable {T : TestTable}

/-- The line of a report, by the macro that writes it. -/
def line (r : Report T) : List UInt8 :=
  match r.fail, r.exdata with
  | false, none => SEND_CMD_PIPE_OK r.id
  | false, some x => SEND_CMD_PIPE_OK_EX r.id x
  | true, none => SEND_CMD_PIPE_FAIL r.id
  | true, some x => SEND_CMD_PIPE_FAIL_EX r.id x

/-- The extra data, empty when there is none. -/
def text (r : Report T) : List UInt8 := r.exdata.getD []

/-- The status of a report. -/
def status (r : Report T) : Nat := if r.fail then 1 else 0

/-- What stands in front of the extra data and its space. -/
def head (r : Report T) : List UInt8 := decimal r.id ++ chSpace :: decimal r.status

/-- The extra data with its space. -/
def body (r : Report T) : List UInt8 :=
  match r.exdata with
  | none => []
  | some x => chSpace :: x

/-- Every line is its head, its extra data and the line feed. -/
theorem line_eq (r : Report T) : r.line = r.head ++ (r.body ++ [chLf]) := by
  -- the format strings of the macros behind `%d`
  have hok : ascii " 0\n" = chSpace :: decimal 0 ++ [chLf] := rfl
  have hokEx : ascii " 0 " = chSpace :: decimal 0 ++ [chSpace] := rfl
  have hfail : ascii " 1\n" = chSpace :: decimal 1 ++ [chLf] := rfl
  have hfailEx : ascii " 1 " = chSpace :: decimal 1 ++ [chSpace] := rfl
  have hlf : ascii "\n" = [chLf] := rfl
  obtain ⟨id, fail, exdata, _, _⟩ := r
  cases fail <;> cases exdata <;>
    simp [line, head, body, status, SEND_CMD_PIPE_OK, SEND_CMD_PIPE_OK_EX,
      SEND_CMD_PIPE_FAIL, SEND_CMD_PIPE_FAIL_EX, hok, hokEx, hfail, hfailEx, hlf]

theorem body_tail (r : Report T) : r.body.tail = r.text := by
  unfold body text
  cases r.exdata <;> rfl

theorem id_lt (r : Report T) : (r.id : Nat) < 2147483648 := by
  have := r.id.isLt
  have := T.count
  omega

theorem status_le (r : Report T) : r.status ≤ 1 := by
  unfold status
  split <;> omega

theorem head_length (r : Report T) : r.head.length ≤ 12 := by
  have hid : (decimal (r.id : Nat)).length ≤ 10 :=
    decimal_length_le (by omega) (by have := r.id_lt; omega)
  have hst : (decimal r.status).length ≤ 1 :=
    decimal_length_le (by omega) (by have := r.status_le; omega)
  simp only [head, List.length_append, List.length_cons]
  omega

/-- A printed number holds no byte the words are separated by, and no NUL. -/
theorem decimal_plain {n : Nat} {c : UInt8} (h : c ∈ decimal n) :
    c ≠ chLf ∧ c ≠ chSpace ∧ c ≠ 0 := by
  have hd := isdigit_of_mem_decimal h
  refine ⟨?_, ?_, ?_⟩ <;> rintro rfl <;> cases hd

theorem head_plain (r : Report T) : chLf ∉ r.head ∧ 0 ∉ r.head := by
  refine ⟨?_, ?_⟩
  · intro h
    rw [head, List.mem_append, List.mem_cons] at h
    rcases h with h | h | h
    · exact (decimal_plain h).1 rfl
    · cases h
    · exact (decimal_plain h).1 rfl
  · intro h
    rw [head, List.mem_append, List.mem_cons] at h
    rcases h with h | h | h
    · exact (decimal_plain h).2.2 rfl
    · cases h
    · exact (decimal_plain h).2.2 rfl

theorem body_plain (r : Report T) : chLf ∉ r.body ∧ 0 ∉ r.body := by
  unfold body
  cases hx : r.exdata with
  | none => simp
  | some x =>
    refine ⟨?_, ?_⟩
    · rw [List.mem_cons, not_or]
      exact ⟨by decide, r.noLf x hx⟩
    · rw [List.mem_cons, not_or]
      exact ⟨by decide, r.noNul x hx⟩

theorem body_head (r : Report T) {c : UInt8} (h : r.body.head? = some c) : c = chSpace := by
  unfold body at h
  cases hx : r.exdata with
  | none => rw [hx] at h; cases h
  | some x => rw [hx] at h; cases h; rfl

end Report

end Lichee.Core

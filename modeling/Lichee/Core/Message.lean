import Lichee.Base.Errors
import Lichee.Base.Loop
import Lichee.Core.TestCase
import Lichee.View.Items

/- The message loop of core (core.c, `main`). The loop reads the command pipe with a
   buffer of 128 bytes, takes each buffer apart into an id, a status and extra data, and
   hands the view one update.

   A report reaches the view as one update when the first read holds what the update
   shows of it and no later read looks like a message of its own (`ReadWhole`). Extra
   data of a single byte is dropped even so: the trimming keeps the index of the last
   byte and takes an index of 0 for nothing. -/
namespace Lichee.Core
open Base View

/-- A call of `view_update_item`. -/
structure ViewUpdate where
  id : Int
  data : ItemData
  deriving DecidableEq, Repr

/-- Why the loop ends: `break`, or an access outside `base_info`. -/
inductive Leave where
  | completion
  | outside
  deriving DecidableEq, Repr

/-- " \n" -/
def wordDelims : List UInt8 := [chSpace, chLf]

/-- "trim space": `exdata_len` is the index of the last byte that is no blank, and it has to
be positive. Of nothing but blanks the scan runs back to the NUL in front of them, and
`exdata_len` is negative. -/
def trimSpace (exdata : List UInt8) : List UInt8 :=
  let exdata_len : Int := (trim exdata).length - 1
  if exdata_len > 0 then trim exdata else []

/-- `base_info[test_case_id]`. -/
def baseInfo (T : TestTable) : Int → Option TestcaseBaseInfo
  | .ofNat i => T.entries[i]?
  | .negSucc _ => none

/-- The item data core fills for a table entry. -/
def itemData (info : TestcaseBaseInfo) (result : Int) (exdata : List UInt8) : ItemData where
  name := strncpy info.name 32
  displayName := padTo 68 (strncpy info.displayName 64)
  category := info.category
  status := result
  exdata := padTo 68 (strncpy exdata 64)

/-- The body of the loop behind `fgets`, up to the update it asks the view for. -/
def command (T : TestTable) (buffer : List UInt8) : Except Leave (Option ViewUpdate) :=
  let test_case_id_s := strtok wordDelims buffer
  -- `strtok` has put a NUL behind the first word, which alone is compared
  if strcmp0 (strtokLeaves wordDelims buffer) TEST_COMPLETION then .error .completion
  else
    match test_case_id_s with
    | none => .ok none
    | some (test_case_id_s, save) =>
      match strtok wordDelims save with
      | none => .ok none
      | some (result_s, save) =>
        let exdata := ((strtok [chLf] save).map Prod.fst).getD []
        match baseInfo T (atoi test_case_id_s) with
        -- the number of the line is not compared with the length of the table
        | none => .error .outside
        | some info =>
          .ok (some ⟨atoi test_case_id_s, itemData info (atoi result_s) (trimSpace exdata)⟩)

/-- The loop at its head: what is in the pipe, and the updates so far. -/
structure Listening where
  fromChild : List UInt8
  updates : List ViewUpdate
  deriving DecidableEq, Repr

/-- One turn of `while (1)`. An empty pipe makes `fgets` return NULL. -/
def listen (T : TestTable) (s : Listening) : Except Leave Listening :=
  if s.fromChild = [] then .ok s
  else do
    let u ← command T (cstr (fgets 127 s.fromChild).1)
    .ok ⟨(fgets 127 s.fromChild).2, s.updates ++ u.toList⟩

/-- The states of the loop. -/
abbrev Heard (T : TestTable) : Listening → Listening → Prop :=
  Reach (fun _ => true) (listen T)

/-! ## What is claimed of a report, and when it holds -/

namespace Report
variable {T : TestTable}

/-- The update a report asks for: its id and status, the names and the category of its
entry, and its extra data trimmed and cut to 64 bytes. -/
def update (r : Report T) : ViewUpdate where
  id := (r.id : Nat)
  data := itemData (T.entries.get r.id) r.status (trim r.text)

/-- Whatever is in the pipe behind the line of `r`, the loop reads the line to its end and
makes the update of `r`, and no other. -/
def Delivered (r : Report T) : Prop :=
  ∀ rest updates, Heard T ⟨r.line ++ rest, updates⟩ ⟨rest, updates ++ [r.update]⟩

/-- The part of the extra data in the first 127 bytes of the line. -/
def read (r : Report T) : List UInt8 := (r.body.take (127 - r.head.length)).tail

end Report

/-- Piece `k` of a line longer than the buffer. -/
def piece (line : List UInt8) (k : Nat) : List UInt8 := (line.drop (127 * k)).take 127

/-- A buffer that has fewer than two words and is not the completion line. -/
def Quiet (buffer : List UInt8) : Prop :=
  strcmp0 (strtokLeaves wordDelims buffer) TEST_COMPLETION = false ∧
    ∀ w save, strtok wordDelims buffer = some (w, save) → strtok wordDelims save = none

/-- The first read holds what is shown of the extra data, which is not one byte, and the
later reads are quiet. -/
structure ReadWhole {T : TestTable} (r : Report T) : Prop where
  single : (trim r.read).length ≠ 1
  same : (trim r.read).take 64 = (trim r.text).take 64
  later : ∀ k, Quiet (piece r.line (k + 1))

variable {T : TestTable}

/-! ## One buffer -/

theorem mem_wordDelims {c : UInt8} : c ∈ wordDelims ↔ c = chSpace ∨ c = chLf := by
  simp [wordDelims]

theorem decimal_not_delim {n : Nat} : ∀ c ∈ decimal n, c ∉ wordDelims := by
  intro c hc h
  obtain ⟨hlf, hspace, -⟩ := Report.decimal_plain hc
  rcases mem_wordDelims.mp h with h | h
  · exact hspace h
  · exact hlf h

/-- A number is not the completion line. -/
theorem decimal_not_completion (n : Nat) : strcmp0 (decimal n) TEST_COMPLETION = false := by
  have hnul : 0 ∉ decimal n := fun h => (Report.decimal_plain h).2.2 rfl
  have hd : (0x64 : UInt8) ∈ TEST_COMPLETION := by simp [TEST_COMPLETION, ascii]; decide
  rw [strcmp0, beq_eq_false_iff_ne, cstr_self hnul]
  intro h
  have hdone : cstr TEST_COMPLETION = TEST_COMPLETION := rfl
  rw [hdone] at h
  rw [← h] at hd
  cases isdigit_of_mem_decimal hd

/-- The extra data `strtok` finds behind the status: all of it, up to the line feed. -/
theorem strtok_exdata {z e : List UInt8} (hz : chLf ∉ z) (he : e = [] ∨ e = [chLf]) :
    ((strtok [chLf] (z ++ e).tail).map Prod.fst).getD [] = z.tail := by
  have hend : ∀ c, e.head? = some c → c ∈ [chLf] := by
    rcases he with rfl | rfl <;> simp
  have hnone : strtok [chLf] e = none := by
    rcases he with rfl | rfl <;> rfl
  have htail : strtok [chLf] e.tail = none := by
    rcases he with rfl | rfl <;> rfl
  cases z with
  | nil =>
    rw [List.nil_append, htail]
    rfl
  | cons c x =>
    show ((strtok [chLf] (x ++ e)).map Prod.fst).getD [] = x
    by_cases hx : x = []
    · subst hx
      rw [List.nil_append, hnone]
      rfl
    · have hword : ∀ d ∈ x, d ∉ [chLf] := by
        intro d hd h
        rw [List.mem_singleton] at h
        subst h
        exact hz (List.mem_cons_of_mem _ hd)
      rw [strtok_word hx hword hend]
      rfl

theorem baseInfo_get (i : Fin T.entries.length) :
    baseInfo T (i : Nat) = some (T.entries.get i) :=
  List.getElem?_eq_getElem i.isLt

/-- The head of a report and what the buffer holds of its extra data make an update of the
report's entry. -/
theorem command_head (r : Report T) {z e : List UInt8} (hz : chLf ∉ z)
    (hspace : ∀ c, z.head? = some c → c = chSpace) (he : e = [] ∨ e = [chLf]) :
    command T (r.head ++ (z ++ e)) = .ok (some ⟨(r.id : Nat),
      itemData (T.entries.get r.id) r.status (trimSpace z.tail)⟩) := by
  -- the id and the status end at a space, the status also at the end of the buffer
  have hsep : ∀ c, (chSpace :: (decimal r.status ++ (z ++ e))).head? = some c →
      c ∈ wordDelims := by
    intro c hc
    cases hc
    exact mem_wordDelims.mpr (.inl rfl)
  have hend : ∀ c, (z ++ e).head? = some c → c ∈ wordDelims := by
    intro c hc
    cases z with
    | nil =>
      rcases he with rfl | rfl
      · cases hc
      · cases hc
        exact mem_wordDelims.mpr (.inr rfl)
    | cons d z =>
      cases hc
      exact mem_wordDelims.mpr (.inl (hspace _ rfl))
  have hhead : r.head ++ (z ++ e) =
      decimal r.id ++ chSpace :: (decimal r.status ++ (z ++ e)) := by
    simp [Report.head]
  have hstatus : r.status < 2147483648 := by
    have := r.status_le
    omega
  unfold command
  rw [hhead, strtokLeaves_word (decimal_ne_nil _) decimal_not_delim hsep,
    strtok_word (decimal_ne_nil _) decimal_not_delim hsep, decimal_not_completion]
  simp only [Bool.false_eq_true, if_false, List.tail_cons]
  rw [strtok_word (decimal_ne_nil _) decimal_not_delim hend]
  simp only [strtok_exdata hz he, atoi_decimal r.id_lt, atoi_decimal hstatus, baseInfo_get]

/-- A quiet buffer, and no other, is passed over. -/
theorem command_quiet (b : List UInt8) : command T b = .ok none ↔ Quiet b := by
  unfold command Quiet
  cases hdone : strcmp0 (strtokLeaves wordDelims b) TEST_COMPLETION with
  | true => simp
  | false =>
    cases hw : strtok wordDelims b with
    | none => simp
    | some p =>
      obtain ⟨w, save⟩ := p
      cases hw' : strtok wordDelims save with
      | none => simp [hw']
      | some p' =>
        obtain ⟨w', save'⟩ := p'
        cases hinfo : baseInfo T (atoi w) <;> simp [hw', hinfo]

/-! ## One turn of the loop -/

/-- A line that fits the buffer is read whole. -/
theorem listen_line {y : List UInt8} (hlf : chLf ∉ y) (hnul : 0 ∉ y) (hy : y.length < 127)
    (rest : List UInt8) (us : List ViewUpdate) :
    listen T ⟨y ++ chLf :: rest, us⟩ = (command T (y ++ [chLf]) >>= fun u =>
      .ok ⟨rest, us ++ u.toList⟩) := by
  have hcstr : cstr (y ++ [chLf]) = y ++ [chLf] := by
    apply cstr_self
    intro h
    rcases List.mem_append.mp h with h | h
    · exact hnul h
    · cases List.mem_singleton.mp h
  rw [listen, if_neg (by simp), fgets_line hlf hy, hcstr]

/-- Of a longer line a turn reads 127 bytes. -/
theorem listen_cut {y : List UInt8} (hlf : chLf ∉ y) (hnul : 0 ∉ y) (hy : y.length = 127)
    (rest : List UInt8) (us : List ViewUpdate) :
    listen T ⟨y ++ rest, us⟩ = (command T y >>= fun u => .ok ⟨rest, us ++ u.toList⟩) := by
  have hne : y ++ rest ≠ [] := by
    intro h
    rw [List.append_eq_nil_iff] at h
    rw [h.1] at hy
    cases hy
  rw [listen, if_neg hne, fgets_cut hlf hy, cstr_self hnul]

/-- No turn takes an update back. -/
theorem heard_updates {s t : Listening} (h : Heard T s t) : s.updates <+: t.updates := by
  refine h.invariant (I := fun t : Listening => s.updates <+: t.updates) (List.prefix_refl _) ?_
  intro t u hpre _ hstep
  unfold listen at hstep
  split at hstep
  · cases hstep
    exact hpre
  · obtain ⟨v, -, hv⟩ := bind_eq_ok.mp hstep
    cases hv
    exact hpre.trans (List.prefix_append _ _)

/-! ## The pieces of a line -/

theorem piece_succ (l : List UInt8) (k : Nat) : piece l (k + 1) = piece (l.drop 127) k := by
  rw [piece, piece, List.drop_drop]
  congr 2
  ring

theorem piece_zero (l : List UInt8) : piece l 0 = l.take 127 := rfl

theorem quiet_nil : Quiet [] := ⟨rfl, by rintro _ _ ⟨⟩⟩

theorem quiet_pieces (l : List UInt8) : (∀ k, Quiet (piece l k)) ↔
    Quiet (l.take 127) ∧ ∀ k, Quiet (piece (l.drop 127) k) := by
  rw [← Nat.and_forall_add_one]
  simp only [piece_zero, piece_succ]

/-- Behind a line that fits the buffer there is no further piece. -/
theorem quiet_behind {l : List UInt8} (h : l.length ≤ 127) (k : Nat) :
    Quiet (piece l (k + 1)) := by
  rw [piece, List.drop_eq_nil_of_le (by omega), List.take_nil]
  exact quiet_nil

/-- A turn that reads the buffer `b` adds no update, now or later, exactly when `b` is quiet
and nothing behind it adds one. -/
theorem heard_turn {s : Listening} {b rest rest' : List UInt8} {us : List ViewUpdate}
    (hs : listen T s = (command T b >>= fun u => .ok ⟨rest, us ++ u.toList⟩))
    (hne : s ≠ ⟨rest', us⟩) :
    Heard T s ⟨rest', us⟩ ↔ Quiet b ∧ Heard T ⟨rest, us⟩ ⟨rest', us⟩ := by
  refine ⟨?_, ?_⟩
  · intro h
    obtain ⟨t, -, ht, hheard⟩ := h.uncons hne
    rw [hs] at ht
    obtain ⟨u, hu, he⟩ := bind_eq_ok.mp ht
    cases he
    have hlen := (heard_updates hheard).length_le
    cases u with
    | none =>
      rw [Option.toList_none, List.append_nil] at hheard
      exact ⟨(command_quiet b).mp hu, hheard⟩
    | some u =>
      simp only [Option.toList_some, List.length_append, List.length_singleton] at hlen
      omega
  · rintro ⟨hq, h⟩
    apply Reach.head rfl _ h
    rw [hs, (command_quiet b).mpr hq]
    simp

theorem line_ne_rest (y rest : List UInt8) (us : List ViewUpdate) :
    (⟨y ++ chLf :: rest, us⟩ : Listening) ≠ ⟨rest, us⟩ := by
  intro h
  have hlen := congrArg (fun s : Listening => s.fromChild.length) h
  simp only [List.length_append, List.length_cons] at hlen
  omega

/-- The rest of a line is read without an update exactly when each of its pieces is quiet. -/
theorem heard_rest (rest : List UInt8) (us : List ViewUpdate) :
    ∀ (n : Nat) (y : List UInt8), y.length ≤ n → chLf ∉ y → 0 ∉ y →
      (Heard T ⟨y ++ chLf :: rest, us⟩ ⟨rest, us⟩ ↔ ∀ k, Quiet (piece (y ++ [chLf]) k)) := by
  intro n
  induction n using Nat.strong_induction_on with
  | h n ih =>
    intro y hn hlf hnul
    have hne := line_ne_rest y rest us
    by_cases hy : y.length < 127
    · have hlen : (y ++ [chLf]).length ≤ 127 := by simpa using hy
      rw [heard_turn (listen_line hlf hnul hy rest us) hne, and_iff_left .refl,
        ← Nat.and_forall_add_one, piece_zero, List.take_of_length_le hlen,
        and_iff_left fun k => quiet_behind hlen k]
    · -- `a` is read in this turn, `b` in the turns behind it
      obtain ⟨a, b, rfl, ha⟩ : ∃ a b, y = a ++ b ∧ a.length = 127 :=
        ⟨y.take 127, y.drop 127, (List.take_append_drop 127 y).symm, by
          rw [List.length_take]; omega⟩
      rw [List.mem_append, not_or] at hlf hnul
      have hb : b.length < n := by
        rw [List.length_append] at hn
        omega
      rw [List.append_assoc] at hne ⊢
      rw [heard_turn (listen_cut hlf.1 hnul.1 ha (b ++ chLf :: rest) us) hne,
        ih b.length hb b (le_refl _) hlf.2 hnul.2, quiet_pieces (a ++ b ++ [chLf]),
        List.append_assoc, List.take_left' ha, List.drop_left' ha]

/-! ## The line of a report -/

namespace Report

/-- The update the first read of a report makes. -/
def first (r : Report T) : ViewUpdate where
  id := (r.id : Nat)
  data := itemData (T.entries.get r.id) r.status (trimSpace r.read)

/-- A line that fits the buffer is the first read. -/
theorem first_read_whole (r : Report T) (h : (r.head ++ r.body).length < 127)
    (rest : List UInt8) (us : List ViewUpdate) :
    listen T ⟨r.line ++ rest, us⟩ = .ok ⟨rest, us ++ [r.first]⟩ := by
  obtain ⟨hlf, hnul⟩ := r.head_plain
  obtain ⟨hlf', hnul'⟩ := r.body_plain
  have hline : r.line ++ rest = (r.head ++ r.body) ++ chLf :: rest := by
    rw [line_eq]
    simp
  have hread : r.read = r.body.tail := by
    rw [List.length_append] at h
    rw [read, List.take_of_length_le (by omega)]
  rw [hline, listen_line (by simp [hlf, hlf']) (by simp [hnul, hnul']) h, List.append_assoc,
    command_head r hlf' (fun c hc => r.body_head hc) (.inr rfl), first, hread]
  simp

/-- Of a longer line the first read takes the head and `a`, what the buffer holds of the
body. -/
theorem first_read_cut (r : Report T) {a b : List UInt8} (hab : r.body = a ++ b)
    (ha : (r.head ++ a).length = 127) (rest : List UInt8) (us : List ViewUpdate) :
    listen T ⟨r.line ++ rest, us⟩ = .ok ⟨b ++ chLf :: rest, us ++ [r.first]⟩ := by
  obtain ⟨hlf, hnul⟩ := r.head_plain
  obtain ⟨hlf', hnul'⟩ := r.body_plain
  rw [hab, List.mem_append, not_or] at hlf' hnul'
  have hspace : ∀ c, a.head? = some c → c = chSpace := by
    intro c hc
    apply r.body_head
    rw [hab, List.head?_append, hc]
    rfl
  have hread : r.read = a.tail := by
    rw [List.length_append] at ha
    rw [read, hab, List.take_left' (by omega)]
  have hsplit : r.line ++ rest = (r.head ++ a) ++ (b ++ chLf :: rest) := by
    rw [line_eq, hab]
    simp
  have hcmd := command_head r hlf'.1 hspace (.inl rfl)
  rw [List.append_nil] at hcmd
  rw [hsplit, listen_cut (by simp [hlf, hlf'.1]) (by simp [hnul, hnul'.1]) ha, hcmd, first, hread]
  simp

/-- The first read makes an update of the report's entry; the rest of the line adds none
exactly when its pieces are quiet. -/
theorem first_read (r : Report T) (rest : List UInt8) (us : List ViewUpdate) :
    ∃ s, listen T ⟨r.line ++ rest, us⟩ = .ok ⟨s, us ++ [r.first]⟩ ∧
      ∀ vs, Heard T ⟨s, vs⟩ ⟨rest, vs⟩ ↔ ∀ k, Quiet (piece r.line (k + 1)) := by
  by_cases hlen : (r.head ++ r.body).length < 127
  · refine ⟨rest, r.first_read_whole hlen rest us, fun vs => ⟨fun _ k => ?_, fun _ => .refl⟩⟩
    apply quiet_behind
    rw [line_eq, ← List.append_assoc, List.length_append, List.length_singleton]
    omega
  · obtain ⟨a, b, hab, ha⟩ : ∃ a b, r.body = a ++ b ∧ (r.head ++ a).length = 127 := by
      have hhead := r.head_length
      refine ⟨_, _, (List.take_append_drop (127 - r.head.length) r.body).symm, ?_⟩
      rw [List.length_append] at hlen ⊢
      rw [List.length_take]
      omega
    refine ⟨b ++ chLf :: rest, r.first_read_cut hab ha rest us, fun vs => ?_⟩
    have hpieces : ∀ k, piece r.line (k + 1) = piece (b ++ [chLf]) k := by
      intro k
      have hsplit : r.line = (r.head ++ a) ++ (b ++ [chLf]) := by
        rw [line_eq, hab]
        simp
      rw [piece_succ, hsplit, List.drop_left' ha]
    obtain ⟨hlf, hnul⟩ := r.body_plain
    rw [hab, List.mem_append, not_or] at hlf hnul
    simp only [hpieces]
    exact heard_rest rest vs b.length b (le_refl _) hlf.2 hnul.2

theorem read_subset (r : Report T) {c : UInt8} (h : c ∈ r.read) : c ∈ r.text := by
  have hsub : r.read.Sublist r.text := by
    rw [← body_tail]
    exact (List.take_sublist _ _).tail
  exact hsub.mem h

theorem text_nul (r : Report T) : 0 ∉ r.text := by
  rw [← body_tail]
  intro h
  exact r.body_plain.2 (List.mem_of_mem_tail h)

/-- Of extra data the update shows 64 bytes. -/
theorem itemData_exdata {info : TestcaseBaseInfo} {st : Int} {a b : List UInt8} (ha : 0 ∉ a)
    (hb : 0 ∉ b) : itemData info st a = itemData info st b ↔ a.take 64 = b.take 64 := by
  have hshown : ∀ x : List UInt8, 0 ∉ x → cstr (padTo 68 (strncpy x 64)) = x.take 64 := by
    intro x hx
    calc cstr (padTo 68 (strncpy x 64)) = cstr (strncpy x 64) := cstr_padTo _ _
      _ = (cstr x).take 64 := cstr_strncpy _ _
      _ = x.take 64 := by rw [cstr_self hx]
  refine ⟨?_, ?_⟩
  · intro h
    have hex := congrArg (fun d => cstr d.exdata) h
    simp only [itemData] at hex
    rwa [hshown a ha, hshown b hb] at hex
  · intro h
    simp only [itemData, strncpy, cstr_self ha, cstr_self hb, h]

theorem trimSpace_eq (x : List UInt8) :
    trimSpace x = if 2 ≤ (trim x).length then trim x else [] := by
  unfold trimSpace
  have : ((trim x).length : Int) - 1 > 0 ↔ 2 ≤ (trim x).length := by omega
  simp only [this]

/-- The first update is the report's own when the first read shows what the report asks
for, and what it shows is not dropped. -/
theorem first_eq_update (r : Report T) :
    r.first = r.update ↔
      (trim r.read).length ≠ 1 ∧ (trim r.read).take 64 = (trim r.text).take 64 := by
  have hread : 0 ∉ trim r.read := fun h => r.text_nul (r.read_subset (mem_of_mem_trim h))
  have htext : 0 ∉ trim r.text := fun h => r.text_nul (mem_of_mem_trim h)
  have hspace : 0 ∉ trimSpace r.read := by
    rw [trimSpace_eq]
    split
    · exact hread
    · simp
  have hiff : r.first = r.update ↔ (trimSpace r.read).take 64 = (trim r.text).take 64 := by
    have hdata := @itemData_exdata (T.entries.get r.id) r.status _ _ hspace htext
    rw [← hdata]
    unfold first update
    simp
  rw [hiff, trimSpace_eq]
  by_cases h2 : 2 ≤ (trim r.read).length
  · rw [if_pos h2]
    exact ⟨fun h => ⟨by omega, h⟩, And.right⟩
  · rw [if_neg h2]
    by_cases h0 : trim r.read = []
    · simp [h0]
    · -- one byte is left: it is shown of the text, and dropped from the update
      have h1 : (trim r.read).length = 1 := by
        have := List.length_pos_iff.mpr h0
        omega
      refine ⟨?_, ?_⟩
      · intro h
        have htrim : trim r.text = [] := by
          rw [List.take_nil] at h
          rcases List.take_eq_nil_iff.mp h.symm with h | h
          · cases h
          · exact h
        have hall := trim_eq_nil.mp htrim
        exact absurd (trim_eq_nil.mpr fun c hc => hall c (r.read_subset hc)) h0
      · rintro ⟨hne, -⟩
        exact absurd h1 hne

theorem readWhole_of_delivered {r : Report T} (h : r.Delivered) : ReadWhole r := by
  obtain ⟨s, hs, hrest⟩ := r.first_read [] []
  have hne : (⟨r.line ++ [], []⟩ : Listening) ≠ ⟨[], [] ++ [r.update]⟩ := by simp
  obtain ⟨t, -, ht, hheard⟩ := (h [] []).uncons hne
  rw [hs] at ht
  cases ht
  have heq : r.first = r.update := by
    simpa using (heard_updates hheard).eq_of_length (by simp)
  rw [heq] at hheard
  obtain ⟨hsingle, hsame⟩ := r.first_eq_update.mp heq
  exact ⟨hsingle, hsame, (hrest _).mp hheard⟩

theorem delivered_of_readWhole {r : Report T} (h : ReadWhole r) : r.Delivered := by
  intro rest us
  obtain ⟨s, hs, hrest⟩ := r.first_read rest us
  rw [r.first_eq_update.mpr ⟨h.single, h.same⟩] at hs
  exact Reach.head rfl hs ((hrest _).mpr h.later)

end Report

/-- A report is delivered exactly when the first read holds what is shown of it and the
later reads are quiet. -/
theorem delivered_iff (T : TestTable) (r : Report T) : r.Delivered ↔ ReadWhole r := by
  refine ⟨?_, ?_⟩
  · intro h
    exact Report.readWhole_of_delivered h
  · intro h
    exact Report.delivered_of_readWhole h

/-! ## Extra data of one byte -/

/-- A table of one testcase. -/
def oneTestcase : TestTable where
  entries := [⟨ascii "memory", ascii "Memory", 1, ascii "memtester", 0, 0, 0⟩]
  ids := by
    intro i h
    have : i = 0 := Nat.lt_one_iff.mp h
    subst this
    rfl
  count := by decide

/-- `SEND_CMD_PIPE_OK_EX("8")` -/
def oneByte : Report oneTestcase where
  id := ⟨0, by decide⟩
  fail := false
  exdata := some [0x38]
  noLf := by rintro _ ⟨⟩; decide
  noNul := by rintro _ ⟨⟩; decide

/-- Its extra data does not reach the view. -/
theorem one_byte_dropped : ¬ oneByte.Delivered := by
  intro h
  have hsingle := (Report.readWhole_of_delivered h).single
  exact hsingle (by decide)

end Lichee.Core

import Lichee.Script.Parser

/- Which objects each part of the compiler can miss. The readers of a line and the value
   parser miss only the script and their own buffers (`Reads`); the tables are missed by
   the writes alone. None of them reports a format error: that is left to the line loop. -/
namespace Lichee.Script
open Base

/-- The objects the script's size can overflow. -/
def Fault.table : Fault → Bool
  | .itemTable | .keyData | .valueData => true
  | .scriptBuf | .valueBuf | .strBuf | .fmtValue => false

def Stop.table : Stop → Bool
  | .format => false
  | .fault f => f.table

/-- The errors of a reader: an access that misses something, but no table. -/
abbrev Reads {α : Type} (x : Except Stop α) : Prop :=
  OnlyRaises (fun e => ∃ f, e = .fault f ∧ f.table = false) x

/-- The errors of a write: an access that misses something. -/
abbrev Faults {α : Type} (x : Except Stop α) : Prop := OnlyRaises (fun e => ∃ f, e = .fault f) x

/-- No error names a table. -/
abbrev Untabled {α : Type} (x : Except Stop α) : Prop := OnlyRaises (fun e => e.table = false) x

theorem Reads.untabled {α : Type} {x : Except Stop α} (h : Reads x) : Untabled x := by
  intro e he
  obtain ⟨f, rfl, hf⟩ := h e he
  exact hf

theorem Reads.faults {α : Type} {x : Except Stop α} (h : Reads x) : Faults x := by
  intro e he
  obtain ⟨f, hf, -⟩ := h e he
  exact ⟨f, hf⟩

theorem rd_reads {f : Fault} (hf : f.table = false) (l : List UInt8) : Reads (rd f l) := by
  cases l with
  | nil => exact .error ⟨f, rfl, hf⟩
  | cons c l => exact .ok _

theorem scanLine_reads (len : Int) (src : List UInt8) (ch : UInt8) (n : Nat) :
    Reads (scanLine len src ch n) := by
  induction src generalizing ch n with
  | nil =>
    unfold scanLine
    split
    · split
      · exact .ok _
      · exact .error ⟨_, rfl, rfl⟩
    · exact .ok _
  | cons c src ih =>
    unfold scanLine
    split
    · split
      · exact .ok _
      · dsimp only
        split
        · exact .ok _
        · exact ih _ _
    · exact .ok _

theorem getline_reads (buf : List UInt8) (len : Int) : Reads (getline buf len) := by
  unfold getline
  apply (rd_reads rfl _).bind
  intro a
  dsimp only
  split
  · exact (rd_reads rfl _).bind fun _ => .ok _
  · apply (rd_reads rfl _).bind
    intro _
    apply (scanLine_reads _ _ _ _).bind
    intro r
    cases r with
    | tooLong => exact .ok _
    | found => exact (rd_reads rfl _).bind fun _ => .ok _

theorem checkLine_reads (src : List UInt8) : Reads (checkLine src) := by
  induction src with
  | nil => exact .error ⟨_, rfl, rfl⟩
  | cons c src ih =>
    unfold checkLine
    split
    · exact ih
    · split <;> exact .ok _

theorem takeKey_reads (src : List UInt8) (idx : Nat) : Reads (takeKey src idx) := by
  induction src generalizing idx with
  | nil => exact .error ⟨_, rfl, rfl⟩
  | cons c src ih =>
    unfold takeKey
    split
    · exact .ok _
    · split
      · exact .ok _
      · exact (ih _).bind fun _ => .ok _

theorem skipToEq_reads (src : List UInt8) : Reads (skipToEq src) := by
  induction src with
  | nil => exact .error ⟨_, rfl, rfl⟩
  | cons c src ih =>
    unfold skipToEq
    split
    · exact .ok _
    · exact ih

theorem takeValue_reads (src : List UInt8) (idx : Nat) : Reads (takeValue src idx) := by
  induction src generalizing idx with
  | nil => exact .error ⟨_, rfl, rfl⟩
  | cons c src ih =>
    unfold takeValue
    split
    · exact .ok _
    · split
      · exact .ok _
      · exact (ih _).bind fun _ => .ok _

theorem getKeyValue_reads (buf : List UInt8) : Reads (getKeyValue buf) := by
  unfold getKeyValue
  apply (checkLine_reads _).bind
  intro r
  cases r with
  | none => exact .ok _
  | some src =>
    refine (takeKey_reads _ _).bind fun _ => (skipToEq_reads _).bind fun _ =>
      (checkLine_reads _).bind fun r => ?_
    cases r with
    | none => exact .ok _
    | some src => exact (takeValue_reads _ _).bind fun _ => .ok _

theorem takeName_reads (src : List UInt8) (i : Nat) : Reads (takeName src i) := by
  induction src generalizing i with
  | nil => exact .error ⟨_, rfl, rfl⟩
  | cons c src ih =>
    unfold takeName
    split
    · exact .ok _
    · split
      · exact .ok _
      · exact (ih _).bind fun _ => .ok _

theorem fillMainkey_reads (buf : List UInt8) : Reads (fillMainkey buf) := by
  unfold fillMainkey
  apply (takeName_reads _ _).bind
  intro _
  split <;> exact .ok _

theorem portNum_reads (src : List UInt8) (ch : UInt8) (temp : UInt32) :
    Reads (portNum src ch temp) := by
  induction src generalizing ch temp with
  | nil =>
    unfold portNum
    split
    · exact .ok _
    · split
      · exact .error ⟨_, rfl, rfl⟩
      · split <;> exact .ok _
  | cons c src ih =>
    unfold portNum
    split
    · exact .ok _
    · split
      · exact ih _ _
      · split <;> exact .ok _

theorem attrText_reads (src : List UInt8) (ch : UInt8) (i : Nat) :
    Reads (attrText src ch i) := by
  induction src generalizing ch i with
  | nil =>
    unfold attrText
    split
    · exact .ok _
    · split <;> exact .error ⟨_, rfl, rfl⟩
  | cons c src ih =>
    unfold attrText
    split
    · exact .ok _
    · split
      · exact .error ⟨_, rfl, rfl⟩
      · exact (ih _ _).bind fun _ => .ok _

theorem gpioAttrs_reads (n : Nat) (value : List UInt32) (ch : UInt8) (src : List UInt8) :
    Reads (gpioAttrs n value ch src) := by
  induction n generalizing value ch src with
  | zero =>
    unfold gpioAttrs
    split
    · exact .ok _
    · apply (attrText_reads _ _ _).bind
      intro a
      dsimp only
      split
      · exact .ok _
      · exact .error ⟨_, rfl, rfl⟩
  | succ n ih =>
    unfold gpioAttrs
    split
    · exact .ok _
    · apply (attrText_reads _ _ _).bind
      intro a
      dsimp only
      split
      · exact .ok _
      · apply (rd_reads rfl _).bind
        intro a
        split
        · exact (rd_reads rfl _).bind fun _ => ih _ _ _
        · split <;> exact .ok _

theorem portLetter_reads (src : List UInt8) : Reads (portLetter src) := by
  unfold portLetter
  split
  · exact .ok _
  · apply (rd_reads rfl _).bind
    intro a
    dsimp only
    split
    · exact .ok _
    · split <;> exact .ok _

theorem gpioValue_reads (src : List UInt8) : Reads (gpioValue src) := by
  unfold gpioValue
  apply (portLetter_reads _).bind
  intro r
  cases r with
  | none => exact .ok _
  | some r =>
    apply (rd_reads rfl _).bind
    intro _
    apply (portNum_reads _ _ _).bind
    intro r
    cases r with
    | none => exact .ok _
    | some r =>
      apply (rd_reads rfl _).bind
      intro _
      apply (gpioAttrs_reads _ _ _ _).bind
      intro r
      cases r <;> exact .ok _

theorem countTo_reads (stop : UInt8) (src : List UInt8) (idx : Nat) :
    Reads (countTo stop src idx) := by
  induction src generalizing idx with
  | nil => exact .error ⟨_, rfl, rfl⟩
  | cons c src ih =>
    unfold countTo
    split
    · exact .ok _
    · split
      · exact .ok _
      · exact ih _

theorem hexVal_reads (src : List UInt8) (temp : UInt32) : Reads (hexVal src temp) := by
  induction src generalizing temp with
  | nil => exact .error ⟨_, rfl, rfl⟩
  | cons c src ih =>
    unfold hexVal
    repeat' split
    all_goals first | exact .ok _ | exact ih _

theorem decVal_reads (src : List UInt8) (temp : UInt32) : Reads (decVal src temp) := by
  induction src generalizing temp with
  | nil => exact .error ⟨_, rfl, rfl⟩
  | cons c src ih =>
    unfold decVal
    repeat' split
    all_goals first | exact .ok _ | exact ih _

theorem getStr2int_reads (buf : List UInt8) : Reads (getStr2int buf) := by
  unfold getStr2int
  split
  · apply (gpioValue_reads _).bind
    intro r
    cases r <;> exact .ok _
  · split
    · exact (countTo_reads _ _ _).bind fun _ => .ok _
    · split
      · apply (countTo_reads _ _ _).bind
        intro _
        split
        · exact .ok _
        · exact .error ⟨_, rfl, rfl⟩
      · split
        · exact (hexVal_reads _ _).bind fun _ => .ok _
        · split
          · split
            all_goals exact (decVal_reads _ _).bind fun _ => .ok _
          · exact (countTo_reads _ _ _).bind fun _ => .ok _

theorem put_faults (f : Fault) (area bytes : List UInt8) (width : Nat) :
    Faults (put f area bytes width) := by
  unfold put
  split
  · exact .ok _
  · exact .error ⟨_, rfl⟩

theorem putKey_faults (t : Tables) (key : List UInt8) : Faults (putKey t key) :=
  (put_faults _ _ _ _).bind fun _ => .ok _

theorem putValue_faults (t : Tables) (type : DataType) (words : UInt32) (bytes : List UInt8) :
    Faults (putValue t type words bytes) :=
  (put_faults _ _ _ _).bind fun _ => (put_faults _ _ _ _).bind fun _ =>
    (put_faults _ _ _ _).bind fun _ => .ok _

theorem countSubkey_faults (t : Tables) : Faults (countSubkey t) := by
  unfold countSubkey
  split
  · exact .error ⟨_, rfl⟩
  · exact .ok _

theorem storeSubkey_faults (t : Tables) (key value : List UInt8) :
    Faults (storeSubkey t key value) := by
  unfold storeSubkey
  apply (putKey_faults t key).bind
  intro _
  apply (getStr2int_reads _).faults.bind
  intro r
  cases r with
  | none => exact countSubkey_faults _
  | some r =>
    dsimp only
    split
    all_goals exact (putValue_faults _ _ _ _).bind fun _ => countSubkey_faults _

end Lichee.Script

import Mathlib.Tactic.IntervalCases
import Lichee.Script.Text

/- Hexadecimal values (`__get_str2int` of script_parser.c). The loop starts at the first byte of
   the text, so the `x` of the prefix is one of the digits, of value 33: it is gone only when
   eight digits have pushed it out of the word. The test for a capital `X` looks one byte too
   far, so such a literal is read as the decimal number its `0` is (`hexRead_iff`). -/
namespace Lichee.Script
open Base

/-! ## Literals -/

def isxdigit (c : UInt8) : Bool :=
  isdigit c || (0x41 ≤ c && c ≤ 0x46) || (0x61 ≤ c && c ≤ 0x66)

/-- The number a hexadecimal digit stands for. -/
def hexDigit (c : UInt8) : Nat :=
  if isdigit c then c.toNat - 0x30 else if isupper c then c.toNat - 0x41 + 10
  else c.toNat - 0x61 + 10

/-- The number digits denote, behind those that denote `n`. -/
def hexNumber (n : Nat) (ds : List UInt8) : Nat := ds.foldl (fun n c => n * 16 + hexDigit c) n

/-- `0x` or `0X`, and 1 to 8 hexadecimal digits. -/
structure HexLiteral where
  capital : Bool
  digits : List UInt8
  ne : digits ≠ []
  short : digits.length ≤ 8
  hex : ∀ c ∈ digits, isxdigit c = true

def HexLiteral.text (l : HexLiteral) : List UInt8 :=
  ch0 :: (if l.capital then chUpperX else chLowerX) :: l.digits

def HexLiteral.number (l : HexLiteral) : Nat := hexNumber 0 l.digits

/-- The value buffer of a literal, ended by its NUL, is read as one word with its number. -/
def HexRead (l : HexLiteral) (rest : List UInt8) : Prop :=
  ∃ r, getStr2int (l.text ++ 0 :: rest) = .ok (some r) ∧ r.type = .singleWord ∧
    (r.fmtValue.getD 0 0).toNat = l.number

/-! ## Numbers -/

theorem hexNumber_shift (n : Nat) (ds : List UInt8) :
    hexNumber n ds = n * 16 ^ ds.length + hexNumber 0 ds := by
  induction ds generalizing n with
  | nil => simp [hexNumber]
  | cons c ds ih =>
    show hexNumber (n * 16 + hexDigit c) ds = n * 16 ^ (ds.length + 1) +
      hexNumber (0 * 16 + hexDigit c) ds
    rw [ih (n * 16 + hexDigit c), ih (0 * 16 + hexDigit c), Nat.pow_succ, Nat.zero_mul,
      Nat.zero_add, Nat.add_mul, Nat.add_assoc, Nat.mul_assoc, Nat.mul_comm 16]

theorem hexDigit_lt {c : UInt8} (h : isxdigit c = true) : hexDigit c < 16 :=
  byte_cases (P := fun c => isxdigit c = true → hexDigit c < 16) (by decide +kernel) c h

/-- Only `0` stands for nothing. -/
theorem hexDigit_eq_zero {c : UInt8} (h : isxdigit c = true) : hexDigit c = 0 ↔ c = ch0 :=
  byte_cases (P := fun c => isxdigit c = true → (hexDigit c = 0 ↔ c = ch0)) (by decide +kernel) c h

theorem hexNumber_lt {ds : List UInt8} (h : ∀ c ∈ ds, isxdigit c = true) :
    hexNumber 0 ds < 16 ^ ds.length := by
  induction ds with
  | nil => decide
  | cons c ds ih =>
    have hc : hexDigit c ≤ 15 := Nat.le_of_lt_succ (hexDigit_lt (h c List.mem_cons_self))
    have hds := ih fun d hd => h d (List.mem_cons_of_mem _ hd)
    calc hexNumber 0 (c :: ds)
        = hexDigit c * 16 ^ ds.length + hexNumber 0 ds := by
          show hexNumber (0 * 16 + hexDigit c) ds = _
          rw [hexNumber_shift, Nat.zero_mul, Nat.zero_add]
      _ < 15 * 16 ^ ds.length + 16 ^ ds.length :=
          Nat.add_lt_add_of_le_of_lt (Nat.mul_le_mul_right _ hc) hds
      _ = 16 ^ (c :: ds).length := by
          rw [List.length_cons, Nat.pow_succ]
          omega

theorem hexNumber_eq_zero {ds : List UInt8} (h : ∀ c ∈ ds, isxdigit c = true) :
    hexNumber 0 ds = 0 ↔ ∀ c ∈ ds, c = ch0 := by
  induction ds with
  | nil => simp [hexNumber]
  | cons c ds ih =>
    have hds := ih fun d hd => h d (List.mem_cons_of_mem _ hd)
    have hpos : 0 < 16 ^ ds.length := Nat.pow_pos (by decide)
    rw [show hexNumber 0 (c :: ds) = hexNumber (0 * 16 + hexDigit c) ds from rfl, hexNumber_shift,
      Nat.zero_mul, Nat.zero_add, Nat.add_eq_zero_iff, Nat.mul_eq_zero,
      hexDigit_eq_zero (h c List.mem_cons_self), hds, List.forall_mem_cons]
    refine ⟨?_, ?_⟩
    · intro ⟨hc, hall⟩
      exact ⟨hc.resolve_right (Nat.ne_of_gt hpos), hall⟩
    · intro ⟨hc, hall⟩
      exact ⟨.inl hc, hall⟩

/-! ## The loop -/

/-- One digit of the loop. -/
theorem hexVal_cons {c : UInt8} (h : isxdigit c = true) (src : List UInt8) (temp : UInt32) :
    hexVal (c :: src) temp = hexVal src (temp * 16 + .ofNat (hexDigit c)) := by
  have hvalue : c ≠ 0 ∧
      (isdigit c = true ∧ c.toUInt32 - 0x30 = .ofNat (hexDigit c) ∨
        isdigit c = false ∧ isupper c = true ∧ c.toUInt32 - 0x41 + 10 = .ofNat (hexDigit c) ∨
        isdigit c = false ∧ isupper c = false ∧ islower c = true ∧
          c.toUInt32 - 0x61 + 10 = .ofNat (hexDigit c)) :=
    byte_cases (P := fun c => isxdigit c = true → c ≠ 0 ∧
      (isdigit c = true ∧ c.toUInt32 - 0x30 = .ofNat (hexDigit c) ∨
        isdigit c = false ∧ isupper c = true ∧ c.toUInt32 - 0x41 + 10 = .ofNat (hexDigit c) ∨
        isdigit c = false ∧ isupper c = false ∧ islower c = true ∧
          c.toUInt32 - 0x61 + 10 = .ofNat (hexDigit c))) (by decide +kernel) c h
  obtain ⟨hne, ⟨hd, hv⟩ | ⟨hd, hu, hv⟩ | ⟨hd, hu, hl, hv⟩⟩ := hvalue
  · rw [hexVal, if_neg hne, if_pos hd, hv]
  · rw [hexVal, if_neg hne, hd, if_neg Bool.false_ne_true, if_pos hu, hv]
  · rw [hexVal, if_neg hne, hd, if_neg Bool.false_ne_true, hu, if_neg Bool.false_ne_true,
      if_pos hl, hv]

/-- The loop over digits, from a word `temp` on: what falls off the word is lost. -/
theorem hexVal_digits {ds : List UInt8} (h : ∀ c ∈ ds, isxdigit c = true) (rest : List UInt8)
    (n : Nat) : hexVal (ds ++ 0 :: rest) (.ofNat n) = .ok (.ofNat (hexNumber n ds)) := by
  induction ds generalizing n with
  | nil => rfl
  | cons c ds ih =>
    have hstep : UInt32.ofNat n * 16 + .ofNat (hexDigit c) = .ofNat (n * 16 + hexDigit c) := by
      rw [UInt32.ofNat_add, UInt32.ofNat_mul]
      rfl
    rw [List.cons_append, hexVal_cons (h c List.mem_cons_self), hstep,
      ih fun d hd => h d (List.mem_cons_of_mem _ hd)]
    rfl

/-! ## The two spellings -/

/-- Behind `0x` the loop goes on from 33, which is what it takes the prefix for. -/
theorem getStr2int_lowerX {ds : List UInt8} (h : ∀ c ∈ ds, isxdigit c = true)
    (rest : List UInt8) :
    getStr2int (ch0 :: chLowerX :: (ds ++ 0 :: rest)) = .ok (some ⟨.singleWord,
      [.ofNat (hexNumber 33 ds), 0, 0, 0, 0, 0, 0, 0], ch0 :: chLowerX :: (ds ++ 0 :: rest)⟩) := by
  have hval : hexVal (ch0 :: chLowerX :: (ds ++ 0 :: rest)) 0 = .ok (.ofNat (hexNumber 33 ds)) :=
    hexVal_digits h rest 33
  generalize ds ++ 0 :: rest = src at hval ⊢
  have hport : strncasecmp0 (ch0 :: chLowerX :: src) (ascii "port:p") = false :=
    strncasecmp0_cons _ _ (by decide)
  have hstring : strncasecmp0 (ch0 :: chLowerX :: src) (ascii "string:") = false :=
    strncasecmp0_cons _ _ (by decide)
  have hquote : ¬ ch0 = chQuote := by decide
  have hprefix : (isdigit ch0 && (chLowerX == chLowerX || src.getD 0 0 == chUpperX)) = true := by
    rw [beq_self_eq_true, Bool.true_or]
    rfl
  unfold getStr2int
  rw [hport, hstring]
  simp only [Bool.false_eq_true, if_false, List.headD_cons, hquote, List.getD_cons_succ,
    List.getD_cons_zero, hprefix, if_true, hval, ok_bind]

/-- The test for `X` looks behind it, at a digit: the literal is its first digit, `0`. -/
theorem getStr2int_upperX {ds : List UInt8} (ne : ds ≠ [])
    (h : ∀ c ∈ ds, isxdigit c = true) (rest : List UInt8) :
    getStr2int (ch0 :: chUpperX :: (ds ++ 0 :: rest)) = .ok (some ⟨.singleWord,
      [0, 0, 0, 0, 0, 0, 0, 0], ch0 :: chUpperX :: (ds ++ 0 :: rest)⟩) := by
  obtain ⟨d, ds', rfl⟩ := List.exists_cons_of_ne_nil ne
  have hd : d ≠ chUpperX := fun hd => by
    have hx := h d List.mem_cons_self
    rw [hd] at hx
    exact absurd hx (by decide)
  have hval : decVal (ch0 :: chUpperX :: (d :: ds' ++ 0 :: rest)) 0 = .ok 0 := rfl
  have hport : strncasecmp0 (ch0 :: chUpperX :: (d :: ds' ++ 0 :: rest)) (ascii "port:p") = false :=
    strncasecmp0_cons _ _ (by decide)
  have hstring : strncasecmp0 (ch0 :: chUpperX :: (d :: ds' ++ 0 :: rest)) (ascii "string:") =
      false := strncasecmp0_cons _ _ (by decide)
  have hquote : ¬ ch0 = chQuote := by decide
  have hminus : ¬ ch0 = chMinus := by decide
  have hprefix : (chUpperX == chLowerX || d == chUpperX) = false :=
    Bool.or_eq_false_iff.mpr ⟨by decide, beq_eq_false_iff_ne.mpr hd⟩
  have hdigit : isdigit ch0 = true := rfl
  unfold getStr2int
  rw [hport, hstring]
  simp only [List.cons_append, Bool.false_eq_true, if_false, List.headD_cons, hquote,
    List.getD_cons_succ, List.getD_cons_zero, hprefix, Bool.and_false, hdigit, Bool.true_or,
    if_true, hminus]
  rw [← List.cons_append, hval, ok_bind]

/-! ## Which literals are read exactly -/

/-- The 33 of the prefix is gone behind eight digits, and behind these only. -/
theorem prefix_lost {n k : Nat} (hn : n < 16 ^ k) (hk : k ≤ 8) :
    (33 * 16 ^ k + n) % 2 ^ 32 = n ↔ k = 8 := by
  refine ⟨?_, ?_⟩
  · intro h
    interval_cases k <;> omega
  · intro h
    subst h
    omega

/-- **Which hexadecimal literals are read exactly**: those with a small `x` and eight digits,
and those with a capital `X` that are zero. -/
theorem hexRead_iff (l : HexLiteral) (rest : List UInt8) :
    HexRead l rest ↔ (l.capital = false ∧ l.digits.length = 8) ∨
      (l.capital = true ∧ ∀ c ∈ l.digits, c = ch0) := by
  have hlt := hexNumber_lt l.hex
  cases hcap : l.capital with
  | false =>
    have hget := getStr2int_lowerX l.hex rest
    have hword : (UInt32.ofNat (hexNumber 33 l.digits)).toNat = l.number ↔
        l.digits.length = 8 := by
      rw [UInt32.toNat_ofNat', hexNumber_shift]
      exact prefix_lost hlt l.short
    have htext : l.text ++ 0 :: rest = ch0 :: chLowerX :: (l.digits ++ 0 :: rest) := by
      simp only [HexLiteral.text, hcap, Bool.false_eq_true, if_false, List.cons_append]
    rw [HexRead, htext, hget]
    refine ⟨?_, ?_⟩
    · intro ⟨r, hr, _, hn⟩
      cases hr
      exact .inl ⟨rfl, hword.mp hn⟩
    · intro h
      have h8 : l.digits.length = 8 := by simpa using h
      exact ⟨_, rfl, rfl, hword.mpr h8⟩
  | true =>
    have hget := getStr2int_upperX l.ne l.hex rest
    have hzero : (0 : UInt32).toNat = l.number ↔ ∀ c ∈ l.digits, c = ch0 := by
      rw [← hexNumber_eq_zero l.hex]
      exact eq_comm
    have htext : l.text ++ 0 :: rest = ch0 :: chUpperX :: (l.digits ++ 0 :: rest) := by
      simp only [HexLiteral.text, hcap, if_true, List.cons_append]
    rw [HexRead, htext, hget]
    refine ⟨?_, ?_⟩
    · intro ⟨r, hr, _, hn⟩
      cases hr
      exact .inr ⟨rfl, hzero.mp hn⟩
    · intro h
      have h0 : ∀ c ∈ l.digits, c = ch0 := by simpa using h
      exact ⟨_, rfl, rfl, hzero.mpr h0⟩

/-- `0x12` is read as `0x2112`, and `0X1` as 0. -/
theorem hexRead_fails :
    ¬ HexRead ⟨false, ascii "12", by decide, by decide, by decide +kernel⟩ (zeros 123) ∧
    ¬ HexRead ⟨true, ascii "1", by decide, by decide, by decide +kernel⟩ (zeros 124) := by
  refine ⟨?_, ?_⟩
  · intro ⟨r, hr, _, hn⟩
    cases hr
    exact absurd hn (by decide)
  · intro ⟨r, hr, _, hn⟩
    cases hr
    exact absurd hn (by decide)

end Lichee.Script

import Lichee.Base.Words
import Mathlib.Data.List.TakeWhile

/- C strings over byte lists. A C string is the part of a byte list before its first
   NUL (`cstr`), so a list that holds no NUL is its own string. The character classes
   are those of the "C" locale: every byte from 0x80 on is in none of them, whatever
   the sign of `char`. -/
namespace Lichee.Base

/-! The characters the sources name. -/

abbrev chTab : UInt8 := 0x09
abbrev chLf : UInt8 := 0x0a
abbrev chCr : UInt8 := 0x0d
abbrev chSpace : UInt8 := 0x20
abbrev chQuote : UInt8 := 0x22
abbrev chPlus : UInt8 := 0x2b
abbrev chMinus : UInt8 := 0x2d
abbrev ch0 : UInt8 := 0x30
abbrev chSemi : UInt8 := 0x3b
abbrev chLt : UInt8 := 0x3c
abbrev chEq : UInt8 := 0x3d
abbrev chGt : UInt8 := 0x3e
abbrev chUpperX : UInt8 := 0x58
abbrev chOpen : UInt8 := 0x5b
abbrev chClose : UInt8 := 0x5d
abbrev chLowerX : UInt8 := 0x78

/-- The bytes of an ASCII literal. -/
def ascii (s : String) : List UInt8 := s.toList.map Char.toUInt8

/-- Strings are looked up in a list by their bytes. -/
instance bytes_lawful : LawfulBEq (List UInt8) := inferInstance

/-! Character classes. -/

def isdigit (c : UInt8) : Bool := 0x30 ≤ c && c ≤ 0x39
def isupper (c : UInt8) : Bool := 0x41 ≤ c && c ≤ 0x5a
def islower (c : UInt8) : Bool := 0x61 ≤ c && c ≤ 0x7a
def tolower (c : UInt8) : UInt8 := if isupper c then c + 0x20 else c

/-- A space or a tab. -/
def isBlank (c : UInt8) : Bool := c == chSpace || c == chTab

/-- A line feed or a carriage return. -/
def isEol (c : UInt8) : Bool := c == chLf || c == chCr

/-! Strings. -/

/-- The C string at the front of a byte list. -/
def cstr (l : List UInt8) : List UInt8 := l.takeWhile (· != 0)

/-- Whether `strcmp(a, b) == 0`. -/
def strcmp0 (a b : List UInt8) : Bool := cstr a == cstr b

/-- Whether `strncmp(a, b, n) == 0`. -/
def strncmp0 (a b : List UInt8) (n : Nat) : Bool := (cstr a).take n == (cstr b).take n

/-- Whether `strncasecmp(src, lit, strlen(lit)) == 0`, for a literal in lower case. -/
def strncasecmp0 (src lit : List UInt8) : Bool := (src.take lit.length).map tolower == lit

/-- The `n` bytes `strncpy(dst, src, n)` stores: the string cut to `n`, then NULs. -/
def strncpy (src : List UInt8) (n : Nat) : List UInt8 := padTo n ((cstr src).take n)

/-- A fact about bytes, checked for each of them. -/
theorem byte_cases {P : UInt8 → Prop} (h : ∀ n : Fin 256, P (.ofNat n)) (c : UInt8) : P c := by
  have := h ⟨c.toNat, c.toNat_lt⟩
  rwa [UInt8.ofNat_toNat] at this

/-- The comparison stops at a first byte that differs. -/
theorem strncasecmp0_cons {c d : UInt8} (l lit : List UInt8) (h : tolower c ≠ d) :
    strncasecmp0 (c :: l) (d :: lit) = false := by
  simp [strncasecmp0, h]

theorem cstr_nul_free (l : List UInt8) : 0 ∉ cstr l := by
  intro h
  have := List.mem_takeWhile_imp h
  simp at this

theorem cstr_self {l : List UInt8} (h : 0 ∉ l) : cstr l = l := by
  apply List.takeWhile_eq_self_iff.mpr
  intro c hc
  simp only [bne_iff_ne, ne_eq]
  rintro rfl
  exact h hc

/-- A string ends at the NUL put behind it. -/
theorem cstr_append_nul {l : List UInt8} (h : 0 ∉ l) (r : List UInt8) :
    cstr (l ++ 0 :: r) = l := by
  have hl : ∀ c ∈ l, (c != 0) = true := by
    intro c hc
    simp only [bne_iff_ne, ne_eq]
    rintro rfl
    exact h hc
  rw [cstr, List.takeWhile_append_of_pos hl]
  simp

theorem cstr_append_zeros (l : List UInt8) (n : Nat) : cstr (l ++ zeros n) = cstr l := by
  induction l with
  | nil => cases n <;> simp [cstr, zeros, List.replicate_succ]
  | cons c l ih =>
    simp only [cstr, List.cons_append, List.takeWhile_cons] at ih ⊢
    split
    · rw [ih]
    · rfl

theorem cstr_padTo (n : Nat) (l : List UInt8) : cstr (padTo n l) = cstr l :=
  cstr_append_zeros l _

theorem cstr_length_le (l : List UInt8) : (cstr l).length ≤ l.length :=
  (List.takeWhile_prefix _).length_le

theorem cstr_cstr (l : List UInt8) : cstr (cstr l) = cstr l := cstr_self (cstr_nul_free l)

/-- The string `strncpy` stores is the source cut to `n`. -/
theorem cstr_strncpy (src : List UInt8) (n : Nat) : cstr (strncpy src n) = (cstr src).take n :=
  calc cstr (strncpy src n) = cstr ((cstr src).take n) := cstr_padTo n _
    _ = (cstr src).take n := cstr_self fun h => cstr_nul_free src (List.mem_of_mem_take h)

theorem strncpy_length (src : List UInt8) (n : Nat) : (strncpy src n).length = n :=
  padTo_length_of_le (List.length_take_le _ _)

/-- Names of at most `n` bytes are compared in full. -/
theorem strncmp0_iff {a b : List UInt8} {n : Nat} (ha : (cstr a).length ≤ n)
    (hb : (cstr b).length ≤ n) : strncmp0 a b n = true ↔ cstr a = cstr b := by
  simp only [strncmp0, beq_iff_eq, List.take_of_length_le ha, List.take_of_length_le hb]

/-- Where the first byte outside a class stands, and what is before and behind it. -/
theorem first_outside {p : UInt8 → Bool} {a a' r r' : List UInt8} {x x' : UInt8}
    (h : a ++ x :: r = a' ++ x' :: r') (ha : ∀ c ∈ a, p c = true) (ha' : ∀ c ∈ a', p c = true)
    (hx : p x = false) (hx' : p x' = false) : a = a' ∧ x = x' ∧ r = r' := by
  have htake := congrArg (List.takeWhile p) h
  have hdrop := congrArg (List.dropWhile p) h
  rw [List.takeWhile_append_of_pos ha, List.takeWhile_append_of_pos ha',
    List.takeWhile_cons_of_neg (by simp [hx]), List.takeWhile_cons_of_neg (by simp [hx']),
    List.append_nil, List.append_nil] at htake
  rw [List.dropWhile_append_of_pos ha, List.dropWhile_append_of_pos ha',
    List.dropWhile_cons_of_neg (by simp [hx]), List.dropWhile_cons_of_neg (by simp [hx'])] at hdrop
  obtain ⟨hxx, hr⟩ := List.cons.inj hdrop
  exact ⟨htake, hxx, hr⟩

/-- A digit is none of the other characters. -/
theorem digit_ne {c z : UInt8} (h : isdigit c = true) (hz : isdigit z = false) : c ≠ z := by
  rintro rfl
  rw [h] at hz
  cases hz

theorem digit_tolower (c : UInt8) : isdigit c = true → tolower c = c :=
  byte_cases (P := fun c => isdigit c = true → tolower c = c) (by decide +kernel) c

theorem digit_noEol {c : UInt8} (h : isdigit c = true) : isEol c = false := by
  have hlf : c ≠ chLf := digit_ne h rfl
  have hcr : c ≠ chCr := digit_ne h rfl
  simp [isEol, hlf, hcr]

theorem digit_noBlank {c : UInt8} (h : isdigit c = true) : isBlank c = false := by
  have hspace : c ≠ chSpace := digit_ne h rfl
  have htab : c ≠ chTab := digit_ne h rfl
  simp [isBlank, hspace, htab]

theorem isBlank_iff (c : UInt8) : isBlank c = true ↔ c = chSpace ∨ c = chTab := by
  simp [isBlank]

theorem not_eol_of_blank {c : UInt8} (h : isBlank c = true) : isEol c = false := by
  rcases (isBlank_iff c).mp h with rfl | rfl <;> rfl

end Lichee.Base

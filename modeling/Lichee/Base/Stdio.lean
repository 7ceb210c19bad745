import Lichee.Base.CStr
import Mathlib.Data.Nat.Digits.Lemmas
import Mathlib.Data.List.DropRight

/- Lines and numbers as the C library reads and prints them: `fgets` takes a stream apart
   into pieces, `strtok` a string into words, and `atoi` reads back what `%d` printed
   (`atoi_decimal`). `long` has 32 bits, as `int` has. -/
namespace Lichee.Base

/-- `fgets` with room for `n` bytes and the NUL: the bytes it stores and the rest of the
stream. -/
def fgets : Nat → List UInt8 → List UInt8 × List UInt8
  | 0, stream => ([], stream)
  | _ + 1, [] => ([], [])
  | n + 1, c :: stream =>
    if c = chLf then ([c], stream) else (c :: (fgets n stream).1, (fgets n stream).2)

/-- `strtok`: the next word of a string and the string kept for the next call, `none` when
no word is left. -/
def strtok (delims s : List UInt8) : Option (List UInt8 × List UInt8) :=
  match s.dropWhile delims.contains with
  | [] => none
  | c :: r => some ((c :: r).takeWhile (!delims.contains ·),
      ((c :: r).dropWhile (!delims.contains ·)).tail)

/-- The string a first `strtok` leaves in its buffer: a NUL stands behind the word. -/
def strtokLeaves (delims s : List UInt8) : List UInt8 :=
  s.takeWhile delims.contains ++ (s.dropWhile delims.contains).takeWhile (!delims.contains ·)

/-- A byte that `isspace` accepts. -/
def isspace (c : UInt8) : Bool := c == chSpace || (chTab ≤ c && c ≤ chCr)

/-- The number a row of digits stands for. -/
def number (ds : List UInt8) : Nat := ds.foldl (fun v c => v * 10 + (c.toNat - 48)) 0

/-- The sign in front of a number and what follows it. -/
def sign : List UInt8 → Bool × List UInt8
  | [] => (false, [])
  | c :: r => if c = chMinus then (true, r) else if c = chPlus then (false, r) else (false, c :: r)

/-- `atoi`: the `strtol` of a string, cut to the values of `long`. -/
def atoi (s : List UInt8) : Int :=
  let (neg, s) := sign (s.dropWhile isspace)
  let v : Int := number (s.takeWhile isdigit)
  max (-2147483648) (min (if neg then -v else v) 2147483647)

/-- What `%d` prints for a number that is not negative. -/
def decimal (n : Nat) : List UInt8 :=
  if n = 0 then [ch0] else ((Nat.digits 10 n).map fun d => ch0 + .ofNat d).reverse

/-- A string without the blanks on either side. -/
def trim (s : List UInt8) : List UInt8 := (s.dropWhile isBlank).rdropWhile isBlank

/-! ## `fgets` -/

theorem fgets_line {l : List UInt8} {n : Nat} (h : chLf ∉ l) (hn : l.length < n)
    (r : List UInt8) : fgets n (l ++ chLf :: r) = (l ++ [chLf], r) := by
  induction l generalizing n with
  | nil =>
    obtain ⟨n, rfl⟩ : ∃ k, n = k + 1 := ⟨n - 1, by simp at hn; omega⟩
    simp [fgets]
  | cons c l ih =>
    obtain ⟨n, rfl⟩ : ∃ k, n = k + 1 := ⟨n - 1, by simp at hn; omega⟩
    rw [List.mem_cons, not_or] at h
    have hl := ih h.2 (n := n) (by simpa using hn)
    simp [fgets, Ne.symm h.1, hl]

/-- A line that is too long is cut. -/
theorem fgets_cut {l : List UInt8} {n : Nat} (h : chLf ∉ l) (hn : l.length = n)
    (r : List UInt8) : fgets n (l ++ r) = (l, r) := by
  subst hn
  induction l with
  | nil => rfl
  | cons c l ih =>
    rw [List.mem_cons, not_or] at h
    simp [fgets, Ne.symm h.1, ih h.2]

/-! ## `strtok` -/

/-- A word in front of a delimiter, or of the end of the string. -/
theorem strtok_word {delims w r : List UInt8} (hne : w ≠ []) (hw : ∀ c ∈ w, c ∉ delims)
    (hr : ∀ c, r.head? = some c → c ∈ delims) : strtok delims (w ++ r) = some (w, r.tail) := by
  obtain ⟨c, w, rfl⟩ := List.exists_cons_of_ne_nil hne
  have hc : c ∉ delims := hw c (by simp)
  have hword : ∀ x ∈ c :: w, (!delims.contains x) = true := by
    intro x hx
    simpa using hw x hx
  -- behind the word stands a delimiter, or nothing
  have hstop : r.takeWhile (!delims.contains ·) = [] ∧
      r.dropWhile (!delims.contains ·) = r := by
    cases r with
    | nil => exact ⟨rfl, rfl⟩
    | cons d r =>
      have hd : d ∈ delims := hr d rfl
      simp [hd]
  rw [strtok, List.cons_append, List.dropWhile_cons_of_neg (by simp [hc])]
  show some ((c :: w ++ r).takeWhile _, ((c :: w ++ r).dropWhile _).tail) = _
  rw [List.takeWhile_append_of_pos hword, List.dropWhile_append_of_pos hword, hstop.1, hstop.2,
    List.append_nil]

/-- The word `strtok` finds at the front of a string is what it leaves there. -/
theorem strtokLeaves_word {delims w r : List UInt8} (hne : w ≠ []) (hw : ∀ c ∈ w, c ∉ delims)
    (hr : ∀ c, r.head? = some c → c ∈ delims) : strtokLeaves delims (w ++ r) = w := by
  have hword : ∀ x ∈ w, (!delims.contains x) = true := by
    intro x hx
    simpa using hw x hx
  obtain ⟨c, w', rfl⟩ := List.exists_cons_of_ne_nil hne
  have hc : c ∉ delims := hw c (by simp)
  have hstop : r.takeWhile (!delims.contains ·) = [] := by
    cases r with
    | nil => rfl
    | cons d r => simp [hr d rfl]
  rw [strtokLeaves, List.cons_append, List.takeWhile_cons_of_neg (by simpa using hc),
    List.dropWhile_cons_of_neg (by simpa using hc), ← List.cons_append,
    List.takeWhile_append_of_pos hword, hstop]
  simp

/-! ## Numbers -/

theorem digit_isdigit {d : Nat} (h : d < 10) : isdigit (ch0 + .ofNat d) = true := by
  interval_cases d <;> decide

theorem digit_toNat {d : Nat} (h : d < 10) : (ch0 + UInt8.ofNat d).toNat - 48 = d := by
  interval_cases d <;> decide

theorem decimal_ne_nil (n : Nat) : decimal n ≠ [] := by
  unfold decimal
  split
  · simp
  · next h => simpa using Nat.digits_ne_nil_iff_ne_zero.mpr h

theorem isdigit_of_mem_decimal {n : Nat} {c : UInt8} (h : c ∈ decimal n) : isdigit c = true := by
  unfold decimal at h
  split at h
  · rw [List.mem_singleton] at h
    rw [h]
    rfl
  · rw [List.mem_reverse, List.mem_map] at h
    obtain ⟨d, hd, rfl⟩ := h
    exact digit_isdigit (Nat.digits_lt_base (by omega) hd)

theorem decimal_length_le {n k : Nat} (hk : 0 < k) (h : n < 10 ^ k) :
    (decimal n).length ≤ k := by
  unfold decimal
  split
  · exact hk
  · rw [List.length_reverse, List.length_map]
    exact (Nat.digits_length_le_iff (by omega) n).mpr h

theorem number_append (a : List UInt8) (c : UInt8) :
    number (a ++ [c]) = number a * 10 + (c.toNat - 48) := by
  simp [number]

theorem number_digits (n : Nat) :
    number ((Nat.digits 10 n).map fun d => ch0 + UInt8.ofNat d).reverse = n := by
  induction n using Nat.strong_induction_on with
  | h n ih =>
    by_cases h : n = 0
    · subst h
      rfl
    · -- the digits are read from the most significant one on
      have hmod : n % 10 < 10 := by omega
      rw [Nat.digits_def' (by omega) (by omega), List.map_cons, List.reverse_cons, number_append,
        ih (n / 10) (by omega), digit_toNat hmod]
      omega

theorem number_decimal (n : Nat) : number (decimal n) = n := by
  unfold decimal
  split
  · next h => rw [h]; rfl
  · exact number_digits n

theorem digit_noSpace (c : UInt8) : isdigit c = true → isspace c = false :=
  byte_cases (P := fun c => isdigit c = true → isspace c = false) (by decide +kernel) c

/-- A printed number is read back. -/
theorem atoi_decimal {n : Nat} (h : n < 2147483648) : atoi (decimal n) = n := by
  have hdig : ∀ c ∈ decimal n, isdigit c = true := fun c hc => isdigit_of_mem_decimal hc
  obtain ⟨c, ds, hds⟩ := List.exists_cons_of_ne_nil (decimal_ne_nil n)
  have hc : isdigit c = true := hdig c (by simp [hds])
  have hspace := digit_noSpace c hc
  have hminus : c ≠ chMinus := digit_ne hc rfl
  have hplus : c ≠ chPlus := digit_ne hc rfl
  have hdrop : (decimal n).dropWhile isspace = decimal n := by
    rw [hds, List.dropWhile_cons_of_neg (by simp [hspace])]
  have hsign : sign (decimal n) = (false, decimal n) := by
    rw [hds]
    simp [sign, hminus, hplus]
  have htake : (decimal n).takeWhile isdigit = decimal n := List.takeWhile_eq_self_iff.mpr hdig
  unfold atoi
  rw [hdrop, hsign]
  simp only [htake, number_decimal]
  simp only [Bool.false_eq_true, if_false]
  omega

/-! ## Trimming -/

/-- Nothing but blanks is trimmed to nothing. -/
theorem trim_eq_nil {s : List UInt8} : trim s = [] ↔ ∀ c ∈ s, isBlank c = true := by
  rw [trim, List.rdropWhile_eq_nil_iff]
  refine ⟨?_, ?_⟩
  · intro h c hc
    rw [← List.takeWhile_append_dropWhile (p := isBlank) (l := s), List.mem_append] at hc
    rcases hc with hc | hc
    · exact List.mem_takeWhile_imp hc
    · exact h c hc
  · intro h c hc
    exact h c ((List.dropWhile_sublist _).mem hc)

theorem mem_of_mem_trim {s : List UInt8} {c : UInt8} (h : c ∈ trim s) : c ∈ s :=
  (List.dropWhile_sublist _).mem ((List.rdropWhile_prefix _ _).mem h)

end Lichee.Base

import Lichee.Script.Parser

/- The readers of one line: `__getline`, `__get_key_value` and `__fill_mainkey`.

   `Got` lists what `__getline` takes for a line: two bytes at a line end, a line up to
   its end (or up to the end of the buffer, where it goes on to read behind it), or a
   line without an end in its first 512 bytes. `getline_eq_ok` is the whole function. -/
namespace Lichee.Script
open Base

/-- The length `__getline` returns for a line whose end, or whose last read but one, is
`d` at index `k`: a line feed behind a carriage return belongs to the line. -/
def lineEnd (k : Nat) (d d' : UInt8) : Nat := if d = chCr ∧ d' = chLf then k + 2 else k + 1

/-- Where a scan from index `n` on stops: inside the buffer at a line end, or behind it. -/
def Stops (len : Int) (n k : Nat) (d : UInt8) : Prop :=
  (isEol d = true ∧ (k : Int) < len) ∨ (len ≤ k ∧ ((k : Int) ≤ n ∨ (k : Int) ≤ len))

/-- No byte ends a line. -/
def NoEol (c : List UInt8) : Prop := ∀ x ∈ c, isEol x = false

instance (c : List UInt8) : Decidable (NoEol c) :=
  inferInstanceAs (Decidable (∀ x ∈ c, isEol x = false))

/-- `\n` or `\r\n`. -/
def LineEnd (eol : List UInt8) : Prop := eol = [chLf] ∨ eol = [chCr, chLf]

/-- The lines `__getline` gets from a memory, given the bytes left in the buffer. -/
inductive Got (len : Int) : List UInt8 → Line → Prop
  | null {ch ch' : UInt8} {y : List UInt8} (h : isEol ch = true) :
      Got len (ch :: ch' :: y) ⟨if ch' = chLf then 2 else 1, .null, y⟩
  | line {ch d d' : UInt8} {c y : List UInt8} (hch : isEol ch = false) (hc : NoEol c)
      (hk : c.length + 1 < LINE_MAX_LEN) (hd : Stops len 1 (c.length + 1) d) :
      Got len (ch :: (c ++ d :: d' :: y)) ⟨lineEnd (c.length + 1) d d', lineFlag ch, y⟩
  | tooLong {ch d : UInt8} {c y : List UInt8} (hch : isEol ch = false) (hc : NoEol c)
      (hk : c.length + 1 = LINE_MAX_LEN) (hlen : (LINE_MAX_LEN : Int) ≤ len) :
      Got len (ch :: (c ++ d :: y)) ⟨0, .error, y⟩

/-! ## `__getline` -/

theorem noEol_cons {x : UInt8} {c : List UInt8} :
    NoEol (x :: c) ↔ isEol x = false ∧ NoEol c := by
  simp [NoEol]

theorem noEol_append {c c' : List UInt8} : NoEol (c ++ c') ↔ NoEol c ∧ NoEol c' := by
  simp only [NoEol, List.mem_append, or_imp, forall_and]

theorem noEol_of_blank {c : List UInt8} (h : ∀ x ∈ c, isBlank x = true) : NoEol c :=
  fun x hx => not_eol_of_blank (h x hx)

theorem lineFlag_null {ch : UInt8} : lineFlag ch = .null ↔ isEol ch = true := by
  unfold lineFlag
  split
  · next h => subst h; decide
  · split
    · next h => simp [h]
    · next h => split <;> simp [h]

theorem lineFlag_ne_error (ch : UInt8) : lineFlag ch ≠ .error := by
  unfold lineFlag
  repeat' split
  all_goals exact nofun

/-- The results of the loop of `__getline` over the bytes from index `n` on. -/
inductive Scanned (len : Int) (n : Nat) (l : List UInt8) : Scan → Prop
  | found {c y : List UInt8} {d : UInt8} (hl : l = c ++ d :: y) (hc : NoEol c)
      (hk : n + c.length < LINE_MAX_LEN) (hd : Stops len n (n + c.length) d) :
      Scanned len n l (.found (n + c.length) d y)
  | tooLong {c y : List UInt8} {d : UInt8} (hl : l = c ++ d :: y) (hc : NoEol c)
      (hk : n + c.length = LINE_MAX_LEN) (hlen : (LINE_MAX_LEN : Int) ≤ len) :
      Scanned len n l (.tooLong y)

theorem noEol_nil : NoEol [] := by simp [NoEol]

theorem scanned_cons {len : Int} {n : Nat} {ch : UInt8} {src : List UInt8} {r : Scan}
    (hn : (n : Int) < len) (hch : isEol ch = false) (h : Scanned len (n + 1) src r) :
    Scanned len n (ch :: src) r := by
  cases h with
  | @found c y d hl hc hk hd =>
    have hlen : n + 1 + c.length = n + (ch :: c).length := by
      rw [List.length_cons]; omega
    rw [hlen] at hk hd ⊢
    refine .found (by rw [hl, List.cons_append]) (noEol_cons.mpr ⟨hch, hc⟩) hk ?_
    rcases hd with h | ⟨hge, hle⟩
    · exact .inl h
    · exact .inr ⟨hge, by rw [List.length_cons] at hge hle ⊢; omega⟩
  | tooLong hl hc hk hlen =>
    exact .tooLong (by rw [hl, List.cons_append]) (noEol_cons.mpr ⟨hch, hc⟩)
      (by rw [List.length_cons]; omega) hlen

theorem scanLine_sound {len : Int} {src : List UInt8} {ch : UInt8} {n : Nat} {r : Scan}
    (hn : n < LINE_MAX_LEN) (h : scanLine len src ch n = .ok r) :
    Scanned len n (ch :: src) r := by
  have hend : ∀ l, Stops len n n ch → Scanned len n (ch :: l) (.found n ch l) := fun l hs =>
    .found (c := []) rfl noEol_nil hn hs
  induction src generalizing ch n with
  | nil =>
    rw [scanLine] at h
    split at h
    · next hlt =>
      split at h
      · next he => cases h; exact hend _ (.inl ⟨he, hlt⟩)
      · cases h
    · next hge => cases h; exact hend _ (.inr ⟨by omega, .inl (by omega)⟩)
  | cons ch' src ih =>
    rw [scanLine] at h
    -- before the last byte of the script; the end of the line; a line too long
    split at h
    · next hlt =>
      split at h
      · next he => cases h; exact hend _ (.inl ⟨he, hlt⟩)
      · next he =>
        have he' : isEol ch = false := by simpa using he
        split at h
        · next hmax =>
          cases h
          refine .tooLong (c := [ch]) rfl (noEol_cons.mpr ⟨he', noEol_nil⟩) ?_ ?_
          · simp only [List.length_singleton]; omega
          · omega
        · next hmax =>
          refine scanned_cons hlt he' (ih (by omega) h fun l hs => ?_)
          exact .found (c := []) rfl noEol_nil (by simp only [List.length_nil]; omega) hs
    · next hge => cases h; exact hend _ (.inr ⟨by omega, .inl (by omega)⟩)

theorem scanLine_found {len : Int} {c : List UInt8} {d : UInt8} {y src : List UInt8}
    {ch : UInt8} {n : Nat} (hl : ch :: src = c ++ d :: y) (hc : NoEol c)
    (hk : n + c.length < LINE_MAX_LEN) (hd : Stops len n (n + c.length) d) :
    scanLine len src ch n = .ok (.found (n + c.length) d y) := by
  induction c generalizing ch src n with
  | nil =>
    obtain ⟨rfl, rfl⟩ := List.cons.inj hl
    unfold scanLine
    rcases hd with ⟨he, hlt⟩ | ⟨hge, -⟩
    · rw [if_pos (by simpa using hlt), if_pos he]; rfl
    · rw [if_neg (by simp only [List.length_nil] at hge; omega)]; rfl
  | cons x c ih =>
    rw [List.cons_append] at hl
    obtain ⟨rfl, rfl⟩ := List.cons.inj hl
    obtain ⟨hx, hc⟩ := noEol_cons.mp hc
    rw [List.length_cons] at hk hd
    obtain ⟨ch', src', hl'⟩ : ∃ ch' src', c ++ d :: y = ch' :: src' :=
      List.exists_cons_of_ne_nil (by simp)
    have hlen : n + 1 + c.length = n + (c.length + 1) := by omega
    have hlt : (n : Int) < len := by
      rcases hd with ⟨-, h⟩ | ⟨h, h'⟩ <;> omega
    have hd' : Stops len (n + 1) (n + 1 + c.length) d := by
      rw [hlen]
      rcases hd with h | ⟨h, h'⟩
      · exact .inl h
      · exact .inr ⟨h, by omega⟩
    rw [hl', scanLine, if_pos hlt, if_neg (by simp [hx]), if_neg (by omega),
      ih hl'.symm hc (by omega) hd', List.length_cons, hlen]

theorem scanLine_tooLong {len : Int} {c : List UInt8} {d : UInt8} {y src : List UInt8}
    {ch : UInt8} {n : Nat} (hl : ch :: src = c ++ d :: y) (hc : NoEol c)
    (hk : n + c.length = LINE_MAX_LEN) (hn : n < LINE_MAX_LEN)
    (hlen : (LINE_MAX_LEN : Int) ≤ len) : scanLine len src ch n = .ok (.tooLong y) := by
  induction c generalizing ch src n with
  | nil => simp only [List.length_nil] at hk; omega
  | cons x c ih =>
    rw [List.cons_append] at hl
    obtain ⟨rfl, rfl⟩ := List.cons.inj hl
    obtain ⟨hx, hc⟩ := noEol_cons.mp hc
    cases c with
    | nil =>
      simp only [List.length_cons, List.length_nil] at hk
      rw [List.nil_append, scanLine, if_pos (by omega), if_neg (by simp [hx]), if_pos (by omega)]
    | cons z c =>
      simp only [List.length_cons] at hk
      rw [List.cons_append, scanLine, if_pos (by omega), if_neg (by simp [hx]), if_neg (by omega)]
      exact ih rfl hc (by rw [List.length_cons]; omega) (by omega)

theorem rd_eq_ok {f : Fault} {l : List UInt8} {r : UInt8 × List UInt8} :
    rd f l = .ok r ↔ l = r.1 :: r.2 := by
  cases l with
  | nil => simp [rd]
  | cons c l => simp [rd, Prod.ext_iff, eq_comm]

theorem got_of_getline {buf : List UInt8} {len : Int} {line : Line}
    (h : getline buf len = .ok line) : Got len buf line := by
  unfold getline at h
  obtain ⟨⟨ch, src⟩, h₁, h₂⟩ := bind_eq_ok.mp h
  rw [rd_eq_ok.mp h₁]
  dsimp only at h₂ ⊢
  split at h₂
  · next hnull =>
    obtain ⟨⟨ch', src'⟩, h₃, h₄⟩ := bind_eq_ok.mp h₂
    rw [rd_eq_ok.mp h₃]
    cases h₄
    exact .null (lineFlag_null.mp hnull)
  · next hnull =>
    have hch : isEol ch = false := by simpa [lineFlag_null] using hnull
    obtain ⟨⟨ch', src'⟩, h₃, h₄⟩ := bind_eq_ok.mp h₂
    obtain ⟨r, hscan, h₅⟩ := bind_eq_ok.mp h₄
    rw [rd_eq_ok.mp h₃]
    cases scanLine_sound (by decide) hscan with
    | @found c y d hl hc hk hd =>
      obtain ⟨⟨d', y'⟩, h₆, h₇⟩ := bind_eq_ok.mp h₅
      cases h₇
      rw [hl, rd_eq_ok.mp h₆]
      rw [Nat.add_comm 1] at hk hd ⊢
      exact .line hch hc hk hd
    | @tooLong c y d hl hc hk hlen =>
      cases h₅
      rw [hl]
      exact .tooLong hch hc (by omega) hlen

theorem getline_of_got {buf : List UInt8} {len : Int} {line : Line}
    (h : Got len buf line) : getline buf len = .ok line := by
  -- the scan starts behind the first byte, at index 1
  have hsplit : ∀ (c : List UInt8) (d : UInt8) (y : List UInt8),
      ∃ ch' src', c ++ d :: y = ch' :: src' := by
    intro c d y
    apply List.exists_cons_of_ne_nil
    simp
  unfold getline
  cases h with
  | null hch => simp only [rd, ok_bind, if_pos (lineFlag_null.mpr hch)]
  | @line ch d d' c y hch hc hk hd =>
    obtain ⟨ch', src', hl⟩ := hsplit c d (d' :: y)
    have hnull : ¬ lineFlag ch = .null := by simp [lineFlag_null, hch]
    have hscan := scanLine_found (n := 1) hl.symm hc (by omega) (by rw [Nat.add_comm]; exact hd)
    rw [hl]
    simp only [rd, ok_bind, if_neg hnull, hscan, Nat.add_comm 1]
    rfl
  | @tooLong ch d c y hch hc hk hlen =>
    obtain ⟨ch', src', hl⟩ := hsplit c d y
    have hnull : ¬ lineFlag ch = .null := by simp [lineFlag_null, hch]
    have hscan := scanLine_tooLong (n := 1) hl.symm hc (by omega) (by decide) hlen
    rw [hl]
    simp only [rd, ok_bind, if_neg hnull, hscan]

/-- **What `__getline` gets.** -/
theorem getline_eq_ok {buf : List UInt8} {len : Int} {line : Line} :
    getline buf len = .ok line ↔ Got len buf line :=
  ⟨got_of_getline, getline_of_got⟩

/-- `__getline` at a line of the text. -/
theorem getline_line {c M : List UInt8} {e d : UInt8} {len : Int} (hne : c ≠ [])
    (hc : NoEol c) (hk : c.length < LINE_MAX_LEN) (he : isEol e = true)
    (hlen : (c.length : Int) < len) :
    getline (c ++ e :: d :: M) len = .ok ⟨lineEnd c.length e d, lineFlag (c.headD 0), M⟩ := by
  obtain ⟨ch, c', rfl⟩ := List.exists_cons_of_ne_nil hne
  obtain ⟨hch, hc'⟩ := noEol_cons.mp hc
  exact getline_eq_ok.mpr (.line hch hc' hk (.inl ⟨he, hlen⟩))

/-! ## What the readers return -/

theorem takeKey_length {src key rest : List UInt8} {idx : Nat}
    (h : takeKey src idx = .ok (key, rest)) (hidx : idx ≤ 30) : key.length + idx ≤ 31 := by
  induction src generalizing idx key with
  | nil => simp [takeKey] at h
  | cons ch src ih =>
    rw [takeKey] at h
    split at h
    · cases h; simp only [List.length_nil]; omega
    · split at h
      · cases h; simp only [List.length_singleton]; omega
      · obtain ⟨⟨k, r⟩, hk, h⟩ := bind_eq_ok.mp h
        cases h
        have := ih hk (by omega)
        simp only [List.length_cons]; omega

theorem takeValue_length {src value : List UInt8} {idx : Nat}
    (h : takeValue src idx = .ok value) (hidx : idx ≤ 126) : value.length + idx ≤ 127 := by
  induction src generalizing idx value with
  | nil => simp [takeValue] at h
  | cons ch src ih =>
    rw [takeValue] at h
    split at h
    · cases h; simp only [List.length_nil]; omega
    · split at h
      · cases h; simp only [List.length_singleton]; omega
      · obtain ⟨v, hv, h⟩ := bind_eq_ok.mp h
        cases h
        have := ih hv (by omega)
        simp only [List.length_cons]; omega

theorem trim_length_le (l : List UInt8) : (trim l).length ≤ l.length := by
  cases l with
  | nil => exact Nat.le_refl _
  | cons c cs =>
    have := (List.rdropWhile_prefix isBlank cs).length_le
    simp only [trim, List.length_cons]; omega

/-- A key leaves room for its NUL in `key[32]`, a value in `value[128]`. -/
theorem getKeyValue_length {buf key value : List UInt8}
    (h : getKeyValue buf = .ok (some (key, value))) : key.length ≤ 31 ∧ value.length ≤ 127 := by
  unfold getKeyValue at h
  obtain ⟨r, -, h⟩ := bind_eq_ok.mp h
  cases r with
  | none => cases h
  | some src =>
    obtain ⟨⟨k, src'⟩, hk, h⟩ := bind_eq_ok.mp h
    obtain ⟨src'', -, h⟩ := bind_eq_ok.mp h
    obtain ⟨r, -, h⟩ := bind_eq_ok.mp h
    have hk' := takeKey_length hk (by omega)
    have ht := trim_length_le k
    cases r with
    | none =>
      cases h
      exact ⟨by omega, by simp⟩
    | some src''' =>
      obtain ⟨v, hv, h⟩ := bind_eq_ok.mp h
      cases h
      have hv' := takeValue_length hv (by omega)
      have ht' := trim_length_le v
      exact ⟨by omega, by omega⟩

theorem takeName_length {src name : List UInt8} {i : Nat} (h : takeName src i = .ok name)
    (hi : i ≤ 31) : name.length + i ≤ 31 := by
  induction src generalizing i name with
  | nil => simp [takeName] at h
  | cons ch src ih =>
    rw [takeName] at h
    split at h
    · cases h; simp only [List.length_nil]; omega
    · split at h
      · cases h; simp only [List.length_nil]; omega
      · next hlt =>
        obtain ⟨n, hn, h⟩ := bind_eq_ok.mp h
        cases h
        unfold ITEM_NAME_MAX_LEN at hlt
        have := ih hn (by omega)
        simp only [List.length_cons]; omega

/-- A section name leaves room for its NUL and is not the empty string. -/
theorem fillMainkey_name {buf name : List UInt8} (h : fillMainkey buf = .ok (some name)) :
    name.length ≤ 31 ∧ name.headD 0 ≠ 0 := by
  unfold fillMainkey at h
  obtain ⟨n, hn, h⟩ := bind_eq_ok.mp h
  have hl := takeName_length hn (by omega)
  split at h
  · cases h
  · next hne =>
    cases h
    exact ⟨by omega, hne⟩

/-! ## Memory behind a line

A reader that stops inside a memory returns the same when more memory follows. -/

theorem checkLine_append {src : List UInt8} {r : Option (List UInt8)}
    (h : checkLine src = .ok r) (Y : List UInt8) :
    checkLine (src ++ Y) = .ok (r.map (· ++ Y)) := by
  induction src with
  | nil => cases h
  | cons ch src ih =>
    rw [List.cons_append, checkLine]
    rw [checkLine] at h
    split at h
    · next hb => rw [if_pos hb]; exact ih h
    · next hb =>
      rw [if_neg hb]
      split at h
      · next he => cases h; rw [if_pos he]; rfl
      · next he => cases h; rw [if_neg he]; rfl

theorem takeKey_append {src key rest : List UInt8} {idx : Nat}
    (h : takeKey src idx = .ok (key, rest)) (Y : List UInt8) :
    takeKey (src ++ Y) idx = .ok (key, rest ++ Y) := by
  induction src generalizing idx key with
  | nil => cases h
  | cons ch src ih =>
    rw [List.cons_append, takeKey]
    rw [takeKey] at h
    split at h
    · next he => cases h; rw [if_pos he]; rfl
    · next he =>
      rw [if_neg he]
      split at h
      · next hi => cases h; rw [if_pos hi]
      · next hi =>
        obtain ⟨⟨k, r⟩, hk, h₁⟩ := bind_eq_ok.mp h
        cases h₁
        rw [if_neg hi, ih hk, ok_bind]

theorem skipToEq_append {src rest : List UInt8} (h : skipToEq src = .ok rest)
    (Y : List UInt8) : skipToEq (src ++ Y) = .ok (rest ++ Y) := by
  induction src with
  | nil => cases h
  | cons ch src ih =>
    rw [List.cons_append, skipToEq]
    rw [skipToEq] at h
    split at h
    · next he => cases h; rw [if_pos he]
    · next he => rw [if_neg he]; exact ih h

theorem takeValue_append {src value : List UInt8} {idx : Nat}
    (h : takeValue src idx = .ok value) (Y : List UInt8) :
    takeValue (src ++ Y) idx = .ok value := by
  induction src generalizing idx value with
  | nil => cases h
  | cons ch src ih =>
    rw [List.cons_append, takeValue]
    rw [takeValue] at h
    split at h
    · next he => rw [if_pos he]; exact h
    · next he =>
      rw [if_neg he]
      split at h
      · next hi => rw [if_pos hi]; exact h
      · next hi =>
        obtain ⟨v, hv, h₁⟩ := bind_eq_ok.mp h
        rw [if_neg hi, ih hv, ok_bind]
        exact h₁

theorem getKeyValue_append {buf : List UInt8} {r : Option (List UInt8 × List UInt8)}
    (h : getKeyValue buf = .ok r) (Y : List UInt8) : getKeyValue (buf ++ Y) = .ok r := by
  -- each reader stops inside `buf`, so the next one finds `Y` behind its rest
  unfold getKeyValue at h ⊢
  obtain ⟨r₀, h₀, h⟩ := bind_eq_ok.mp h
  rw [checkLine_append h₀ Y, ok_bind]
  cases r₀ with
  | none => exact h
  | some src =>
    obtain ⟨⟨k, src₁⟩, h₁, h⟩ := bind_eq_ok.mp h
    obtain ⟨src₂, h₂, h⟩ := bind_eq_ok.mp h
    obtain ⟨r₃, h₃, h⟩ := bind_eq_ok.mp h
    dsimp only [Option.map_some]
    rw [takeKey_append h₁ Y, ok_bind]
    dsimp only at h₂ ⊢
    rw [skipToEq_append h₂ Y, ok_bind, checkLine_append h₃ Y, ok_bind]
    cases r₃ with
    | none => exact h
    | some src₃ =>
      obtain ⟨v, hv, h⟩ := bind_eq_ok.mp h
      dsimp only [Option.map_some]
      rw [takeValue_append hv Y, ok_bind]
      exact h

theorem takeName_append {src name : List UInt8} {i : Nat} (h : takeName src i = .ok name)
    (Y : List UInt8) : takeName (src ++ Y) i = .ok name := by
  induction src generalizing i name with
  | nil => cases h
  | cons ch src ih =>
    rw [List.cons_append, takeName]
    rw [takeName] at h
    split at h
    · next he => rw [if_pos he]; exact h
    · next he =>
      rw [if_neg he]
      split at h
      · next hi => rw [if_pos hi]; exact h
      · next hi =>
        obtain ⟨n, hn, h₁⟩ := bind_eq_ok.mp h
        rw [if_neg hi, ih hn, ok_bind]
        exact h₁

theorem fillMainkey_append {buf : List UInt8} {r : Option (List UInt8)} (hne : buf ≠ [])
    (h : fillMainkey buf = .ok r) (Y : List UInt8) : fillMainkey (buf ++ Y) = .ok r := by
  obtain ⟨ch, src, rfl⟩ := List.exists_cons_of_ne_nil hne
  unfold fillMainkey at h ⊢
  obtain ⟨n, hn, h₁⟩ := bind_eq_ok.mp h
  rw [List.drop_one, List.tail_cons] at hn
  rw [List.cons_append, List.drop_one, List.tail_cons, takeName_append hn Y, ok_bind]
  exact h₁

end Lichee.Script

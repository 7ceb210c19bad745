import Lichee.Script.Faults
import Lichee.Script.Lines
import Lichee.Script.Store

/- The line loop and its buffer. `rest_len` is what the loop believes to be left of the
   script and `src` where it reads; a run is in its buffer when the two agree at every
   line, no line is read past the end, and the loop comes to an end (`InBuffer`).

   Two things break it. `__getline` always reads a byte behind the line end it has found,
   so the last line of a script must not end with a lone line feed or without one
   (`EndsInside`); and a line of blanks takes the `continue` that leaves `src` where it
   was, so such a line is read again (`LineOk.blank`). -/
namespace Lichee.Script
open Base

/-- The loop over `b` keeps to its buffer and terminates. -/
structure InBuffer (b : ScriptBuf) : Prop where
  nonneg : ∀ s, Seen b s → 0 ≤ s.restLen
  pointer : ∀ s, Seen b s → more s = true →
    s.restLen ≤ b.text.length ∧ s.src = b.mem.drop (b.text.length - s.restLen).toNat
  reads : ∀ s, Seen b s → more s = true → ∃ line, getline s.src s.restLen = .ok line ∧
    (s.src.length : Int) ≤ line.src.length + s.restLen
  ends : ∃ n r, whileLoop more step n (initState b) = some r ∧
    (r = .error .format ∨ ∃ s, r = .ok s ∧ s.restLen = 0)

/-- `__getline` finds what it looks for before the end of the text `t`: a byte behind a
first byte that ends the line, else a line end that is not the last byte, unless the text
is long enough for the line to be refused. -/
def EndsInside : List UInt8 → Prop
  | [] => False
  | ch :: r => (isEol ch = true → r ≠ []) ∧
    (isEol ch = false → LINE_MAX_LEN ≤ r.length ∨ ∃ e ∈ r.dropLast, isEol e = true)

/-- The accesses of the line at `s` outside `__getline` are defined: those of its reader,
of the value parser and of the tables. -/
structure Defined (s : State) : Prop where
  mainkey : ∀ line, getline s.src s.restLen = .ok line → line.flag = .mainkey →
    s.tables.items.length < ITEM_MAX_COUNT ∧ ∃ r, fillMainkey s.src = .ok r
  subkey : ∀ line, getline s.src s.restLen = .ok line → line.flag = .subkey →
    ∃ kv, getKeyValue s.src = .ok kv ∧
      ∀ key value, kv = some (key, value) → ∃ t, storeSubkey s.tables key value = .ok t

/-- The line at `s` keeps the loop in its buffer. -/
structure LineOk (s : State) : Prop where
  ends : EndsInside (s.src.take s.restLen.toNat)
  blank : ∀ c e y, s.src.take s.restLen.toNat = c ++ e :: y → c ≠ [] →
    c.length < LINE_MAX_LEN → (∀ x ∈ c, isBlank x = true) → isEol e = true →
    e = chCr ∧ y = [chLf]
  others : Defined s

/-! ## What `__getline` reads -/

/-- Two splits of a text at its first line end are one. -/
theorem eol_split {c c' y y' : List UInt8} {e e' : UInt8} (h : c ++ e :: y = c' ++ e' :: y')
    (hc : NoEol c) (hc' : NoEol c') (he : isEol e = true) (he' : isEol e' = true) :
    c = c' ∧ e = e' ∧ y = y' := by
  have hnot : ∀ {l : List UInt8}, NoEol l → ∀ x ∈ l, (!isEol x) = true := by
    intro l hl x hx
    rw [hl x hx]
    rfl
  apply first_outside h (hnot hc) (hnot hc')
  · rw [he]
    rfl
  · rw [he']
    rfl

/-- What fits into the text stands at its front. -/
theorem prefix_of_append {a r X y : List UInt8} (h : r ++ X = a ++ y)
    (hlen : a.length ≤ r.length) : a <+: r :=
  List.prefix_of_prefix_length_le ⟨y, h.symm⟩ (List.prefix_append r X) hlen

/-- A text that ends in or right behind `c` has no line end but the last byte. -/
theorem no_eol_inside {r X c z : List UInt8} (h : r ++ X = c ++ z) (hc : NoEol c)
    (hlen : r.length ≤ c.length + 1) : ¬ ∃ e ∈ r.dropLast, isEol e = true := by
  rintro ⟨e, he, heol⟩
  have hpre : r.dropLast <+: c := by
    have hfront : r.dropLast <+: c ++ z := (List.dropLast_prefix r).trans ⟨X, h⟩
    apply List.prefix_of_prefix_length_le hfront (List.prefix_append c z)
    rw [List.length_dropLast]; omega
  rw [hc e (hpre.subset he)] at heol
  cases heol

/-- A text up to its first line end, and the rest. -/
theorem split_eol (r : List UInt8) : ∃ c z, r = c ++ z ∧ NoEol c ∧
    ∀ e y, z = e :: y → isEol e = true := by
  refine ⟨r.takeWhile (!isEol ·), r.dropWhile (!isEol ·),
    List.takeWhile_append_dropWhile.symm, ?_, ?_⟩
  · intro x hx
    simpa using List.mem_takeWhile_imp hx
  · intro e y hz
    have hne : r.dropWhile (!isEol ·) ≠ [] := by rw [hz]; simp
    have := List.head_dropWhile_not (!isEol ·) hne
    simpa [hz] using this

/-- A line of 512 bytes or more is refused. -/
theorem got_long {ch : UInt8} {c M : List UInt8} {len : Int} (hch : isEol ch = false)
    (hc : NoEol c) (hk : LINE_MAX_LEN ≤ c.length + 1) (hM : LINE_MAX_LEN ≤ (c ++ M).length)
    (hlen : (LINE_MAX_LEN : Int) ≤ len) : ∃ y, Got len (ch :: (c ++ M)) ⟨0, .error, y⟩ := by
  unfold LINE_MAX_LEN at hk hM
  have hshort : (c.take 511).length = 511 := by rw [List.length_take]; omega
  obtain ⟨d, y, hd⟩ : ∃ d y, c.drop 511 ++ M = d :: y := by
    apply List.exists_cons_of_length_pos
    rw [List.length_append] at hM
    rw [List.length_append, List.length_drop]; omega
  refine ⟨y, ?_⟩
  rw [← List.take_append_drop 511 c, List.append_assoc, hd]
  exact .tooLong hch (fun x hx => hc x (List.mem_of_mem_take hx)) (by rw [hshort]; rfl) hlen

/-- `__getline` stays inside the text exactly when the line ends inside it. -/
theorem got_inside {t X : List UInt8} {line : Line} (ht : t ≠ [])
    (h : Got t.length (t ++ X) line) :
    (t ++ X).length ≤ line.src.length + t.length ↔ EndsInside t := by
  obtain ⟨ch, r, rfl⟩ := List.exists_cons_of_ne_nil ht
  generalize hbuf : ch :: r ++ X = buf at h
  have hlen := congrArg List.length hbuf
  rw [List.cons_append] at hbuf
  cases h with
  | @null ch₀ ch' y hch =>
    obtain ⟨rfl, hr⟩ := List.cons.inj hbuf
    simp only [List.length_append, List.length_cons] at hlen
    simp only [EndsInside, hch, forall_const, Bool.true_eq_false, false_implies, and_true,
      List.length_cons, ne_eq, ← List.length_eq_zero_iff]
    omega
  | @line ch₀ d d' c y hch hc hk hd =>
    obtain ⟨rfl, hr⟩ := List.cons.inj hbuf
    simp only [List.length_append, List.length_cons] at hlen
    simp only [EndsInside, hch, Bool.false_eq_true, false_implies, true_and, forall_const,
      List.length_cons, List.length_append]
    refine ⟨?_, ?_⟩
    -- the last byte taken is behind the line's end, and still in the text
    · intro hle
      rcases hd with ⟨he, -⟩ | ⟨hge, -⟩
      · obtain ⟨z, rfl⟩ : c ++ [d, d'] <+: r := by
          apply prefix_of_append (X := X) (y := y) (by rw [hr]; simp)
          simp only [List.length_append, List.length_cons, List.length_nil]; omega
        refine .inr ⟨d, ?_, he⟩
        rw [List.append_assoc, List.dropLast_append_of_ne_nil (by simp)]
        simp
      · rw [List.length_cons] at hge
        omega
    · rintro (hge | heol)
      · omega
      · by_contra hlt
        exact no_eol_inside hr hc (by omega) heol
  | @tooLong ch₀ d c y hch hc hk hl =>
    obtain ⟨rfl, hr⟩ := List.cons.inj hbuf
    simp only [List.length_append, List.length_cons] at hlen
    simp only [EndsInside, hch, Bool.false_eq_true, false_implies, true_and, forall_const,
      List.length_cons, List.length_append]
    refine ⟨?_, ?_⟩
    · intro hle
      exact .inl (by omega)
    · rintro (hge | heol)
      · omega
      · by_contra hlt
        exact no_eol_inside hr hc (by omega) heol

theorem exists_got {t X : List UInt8} (h : EndsInside t) :
    ∃ line, Got t.length (t ++ X) line := by
  cases t with
  | nil => exact h.elim
  | cons ch r =>
    cases hch : isEol ch with
    | true =>
      obtain ⟨ch', r', rfl⟩ := List.exists_cons_of_ne_nil (h.1 hch)
      exact ⟨_, .null hch⟩
    | false =>
      obtain ⟨c, z, rfl, hc, hz⟩ := split_eol r
      by_cases hlong : LINE_MAX_LEN ≤ c.length + 1
      · have h512 : LINE_MAX_LEN ≤ (c ++ z).length := by
          rcases h.2 hch with h | heol
          · exact h
          · by_contra hlt
            exact no_eol_inside (X := []) (List.append_nil _) hc (by omega) heol
        have hlen : (LINE_MAX_LEN : Int) ≤ ((ch :: (c ++ z)).length : Nat) := by
          rw [List.length_cons]; omega
        obtain ⟨y, hy⟩ := got_long (M := z ++ X) hch hc hlong
          (by rw [← List.append_assoc, List.length_append]; omega) hlen
        rw [← List.append_assoc, ← List.cons_append] at hy
        exact ⟨_, hy⟩
      · have hlast : c.length + 2 ≤ (c ++ z).length := by
          rcases h.2 hch with h | heol
          · omega
          · by_contra hlt
            exact no_eol_inside (X := []) (List.append_nil _) hc (by omega) heol
        -- the end of the line and the byte behind it are in the text
        match z, hz, hlast with
        | [], _, hlast => simp at hlast
        | [e], _, hlast => simp at hlast
        | e :: d' :: y, hz, _ =>
          refine ⟨⟨lineEnd (c.length + 1) e d', lineFlag ch, y ++ X⟩, ?_⟩
          rw [show ch :: (c ++ e :: d' :: y) ++ X = ch :: (c ++ e :: d' :: (y ++ X)) by simp]
          refine .line hch hc (by omega) (.inl ⟨hz e _ rfl, ?_⟩)
          simp only [List.length_cons, List.length_append]; omega

/-- A line that ends inside the text is no longer than it, and takes at least a byte of it
unless it is refused. -/
theorem got_lineLen {t X : List UInt8} {line : Line} (h : Got t.length (t ++ X) line)
    (hin : (t ++ X).length ≤ line.src.length + t.length) :
    line.lineLen ≤ t.length ∧ (line.flag ≠ .error → 1 ≤ line.lineLen) := by
  generalize hbuf : t ++ X = buf at h hin
  cases h with
  | null hch =>
    simp only [List.length_cons] at hin ⊢
    split <;> omega
  | @line ch d d' c y hch hc hk hd =>
    simp only [List.length_cons, List.length_append, lineEnd] at hin ⊢
    split <;> omega
  | tooLong hch hc hk hl => simp

/-- A line that is neither empty nor refused, and ends inside the text, ends at a line end
of the text with a byte behind it. -/
theorem got_line_inside {t X : List UInt8} {line : Line} (h : Got t.length (t ++ X) line)
    (hin : (t ++ X).length ≤ line.src.length + t.length) (hnull : line.flag ≠ .null)
    (herr : line.flag ≠ .error) :
    ∃ c d d' z, t = c ++ d :: d' :: z ∧ c ≠ [] ∧ NoEol c ∧ isEol d = true ∧
      c.length < LINE_MAX_LEN ∧ line.lineLen = lineEnd c.length d d' := by
  generalize hbuf : t ++ X = buf at h hin
  cases h with
  | null => exact absurd rfl hnull
  | tooLong => exact absurd rfl herr
  | @line ch d d' c y hch hc hk hd =>
    have hlen := congrArg List.length hbuf
    simp only [List.length_append, List.length_cons] at hlen hin
    obtain ⟨z, rfl⟩ : ch :: (c ++ [d, d']) <+: t := by
      apply prefix_of_append (X := X) (y := y) (by rw [hbuf]; simp)
      simp only [List.length_append, List.length_cons, List.length_nil]; omega
    refine ⟨ch :: c, d, d', z, by simp, by simp, noEol_cons.mpr ⟨hch, hc⟩, ?_,
      by simpa using hk, by simp⟩
    rcases hd with ⟨he, -⟩ | ⟨hge, -⟩
    · exact he
    · simp only [List.length_append, List.length_cons, List.length_nil] at hge
      omega

/-! ## A line of blanks -/

/-- `__get_key_value` returns -1 exactly for a line of blanks. -/
theorem checkLine_eq_none {src : List UInt8} : checkLine src = .ok none ↔
    ∃ c e y, src = c ++ e :: y ∧ (∀ x ∈ c, isBlank x = true) ∧ isEol e = true := by
  induction src with
  | nil => simp [checkLine]
  | cons ch src ih =>
    rw [checkLine]
    refine ⟨?_, ?_⟩
    · intro h
      split at h
      · next hb =>
        obtain ⟨c, e, y, rfl, hc, he⟩ := ih.mp h
        exact ⟨ch :: c, e, y, rfl, by simpa [hb] using hc, he⟩
      · split at h
        · next he => exact ⟨[], ch, src, rfl, by simp, he⟩
        · cases h
    · rintro ⟨c, e, y, hl, hc, he⟩
      cases c with
      | nil =>
        obtain ⟨rfl, rfl⟩ := List.cons.inj hl
        have hb : ¬ isBlank ch = true := by
          intro hb
          rw [not_eol_of_blank hb] at he
          cases he
        rw [if_neg hb, if_pos he]
      | cons x c =>
        obtain ⟨rfl, rfl⟩ := List.cons.inj hl
        rw [if_pos (hc ch (by simp)), ih]
        exact ⟨c, e, y, rfl, fun z hz => hc z (by simp [hz]), he⟩

theorem getKeyValue_eq_none {src : List UInt8} : getKeyValue src = .ok none ↔
    ∃ c e y, src = c ++ e :: y ∧ (∀ x ∈ c, isBlank x = true) ∧ isEol e = true := by
  rw [← checkLine_eq_none]
  refine ⟨?_, ?_⟩
  · intro h
    unfold getKeyValue at h
    obtain ⟨r, hr, h₁⟩ := bind_eq_ok.mp h
    cases r with
    | none => exact hr
    | some src' =>
      obtain ⟨k, -, h₂⟩ := bind_eq_ok.mp h₁
      obtain ⟨s₁, -, h₃⟩ := bind_eq_ok.mp h₂
      obtain ⟨r, -, h₄⟩ := bind_eq_ok.mp h₃
      cases r with
      | none => cases h₄
      | some s₂ =>
        obtain ⟨v, -, h₅⟩ := bind_eq_ok.mp h₄
        cases h₅
  · intro h
    unfold getKeyValue
    rw [h, ok_bind]

/-- A line of blanks inside the text: `__getline` takes it for a key line, and
`__get_key_value` refuses it. -/
theorem blank_line {t X c y : List UInt8} {e : UInt8} (ht : t = c ++ e :: y)
    (hin : EndsInside t) (hne : c ≠ []) (hc : ∀ x ∈ c, isBlank x = true)
    (hlen : c.length < LINE_MAX_LEN) (he : isEol e = true) :
    ∃ d z, y = d :: z ∧
      getline (t ++ X) t.length = .ok ⟨lineEnd c.length e d, .subkey, z ++ X⟩ ∧
      getKeyValue (t ++ X) = .ok none := by
  have hno := noEol_of_blank hc
  obtain ⟨ch, c', rfl⟩ := List.exists_cons_of_ne_nil hne
  obtain ⟨hch, hc'⟩ := noEol_cons.mp hno
  have hflag : lineFlag ch = .subkey := by
    rcases (isBlank_iff ch).mp (hc ch (by simp)) with rfl | rfl <;> decide
  rw [List.cons_append] at ht
  subst ht
  obtain ⟨d, z, rfl⟩ : ∃ d z, y = d :: z := by
    apply List.exists_cons_of_ne_nil
    rintro rfl
    rcases hin.2 hch with h | heol
    · simp only [List.length_append, List.length_cons, List.length_nil] at h hlen
      omega
    · exact no_eol_inside (X := []) (List.append_nil _) hc' (by simp) heol
  refine ⟨d, z, rfl, ?_, ?_⟩
  · rw [getline_eq_ok, ← hflag]
    have hbuf : ch :: (c' ++ e :: d :: z) ++ X = ch :: (c' ++ e :: d :: (z ++ X)) := by simp
    rw [hbuf]
    refine .line hch hc' (by simpa using hlen) (.inl ⟨he, ?_⟩)
    simp only [List.length_cons, List.length_append]; omega
  · rw [getKeyValue_eq_none]
    exact ⟨ch :: c', e, d :: z ++ X, by simp, hc, he⟩

/-! ## The run -/

/-- What every iteration starts from. -/
structure InStep (b : ScriptBuf) (s : State) : Prop where
  nonneg : 0 ≤ s.restLen
  pointer : more s = true →
    s.restLen ≤ b.text.length ∧ s.src = b.mem.drop (b.text.length - s.restLen).toNat

/-- The text left and the memory behind it. -/
theorem inStep_split {b : ScriptBuf} {s : State} (h : InStep b s) (hm : more s = true) :
    ∃ t X, s.src = t ++ X ∧ s.restLen = t.length ∧ t ≠ [] ∧
      s.src.take s.restLen.toNat = t := by
  obtain ⟨hle, hsrc⟩ := h.pointer hm
  have hpos : s.restLen ≠ 0 := by simpa [more] using hm
  have h0 := h.nonneg
  have hlen : s.restLen.toNat ≤ s.src.length := by
    rw [hsrc, List.length_drop]
    simp only [ScriptBuf.mem, List.length_append, List.length_cons]; omega
  have htake : (s.src.take s.restLen.toNat).length = s.restLen.toNat :=
    List.length_take_of_le hlen
  refine ⟨s.src.take s.restLen.toNat, s.src.drop s.restLen.toNat,
    (List.take_append_drop _ _).symm, by rw [htake]; omega, ?_, rfl⟩
  intro hnil
  rw [hnil, List.length_nil] at htake
  omega

theorem inStep_init (b : ScriptBuf) : InStep b (initState b) := by
  refine ⟨by simp [initState], fun _ => ⟨by simp [initState], ?_⟩⟩
  simp [initState]

/-- An iteration over a line that is in order keeps pointer and counter together. -/
theorem inStep_step {b : ScriptBuf} {s s' : State} (h : InStep b s) (hm : more s = true)
    (hok : LineOk s) (hstep : step s = .ok s') :
    InStep b s' ∧ s'.restLen < s.restLen := by
  obtain ⟨t, X, hsrc, hrest, hne, htake⟩ := inStep_split h hm
  obtain ⟨hle, hptr⟩ := h.pointer hm
  have hends := hok.ends
  rw [htake] at hends
  obtain ⟨line, hl, hs⟩ := step_inv hstep
  have hgot := getline_eq_ok.mp hl
  rw [hsrc, hrest] at hgot
  have hin := (got_inside hne hgot).mpr hends
  obtain ⟨hmax, hmin⟩ := got_lineLen hgot hin
  have hdrop : s.src.drop line.lineLen =
      b.mem.drop (b.text.length - (s.restLen - line.lineLen)).toNat := by
    rw [hptr, List.drop_drop]
    congr 1; omega
  have hmove : line.flag ≠ .error → ∀ tables,
      InStep b ⟨s.src.drop line.lineLen, s.restLen - line.lineLen, tables⟩ ∧
        s.restLen - line.lineLen < s.restLen := by
    intro hf tables
    have := hmin hf
    exact ⟨⟨by simp only; omega, fun _ => ⟨by simp only; omega, hdrop⟩⟩, by omega⟩
  cases hs with
  | inert hf => exact hmove (by rcases hf with hf | hf <;> simp [hf]) _
  | mainkey hf => exact hmove (by simp [hf]) _
  | subkey hf => exact hmove (by simp [hf]) _
  | blank hf hkv =>
    -- a line of blanks in order is the last one, and takes the counter to zero
    obtain ⟨c, d, d', z, ht, hcne, hc, hd, hk, hlen⟩ :=
      got_line_inside hgot hin (by simp [hf]) (by simp [hf])
    obtain ⟨c', e, y, hbuf, hblank, he⟩ := getKeyValue_eq_none.mp hkv
    obtain ⟨rfl, rfl, -⟩ : c = c' ∧ d = e ∧ d' :: z ++ X = y := by
      refine eol_split ?_ hc (noEol_of_blank hblank) hd he
      rw [← hbuf, hsrc, ht]; simp
    obtain ⟨rfl, hz⟩ := hok.blank c d (d' :: z) (by rw [htake, ht]) hcne hk hblank hd
    obtain ⟨rfl, rfl⟩ := List.cons.inj hz
    have hzero : s.restLen - line.lineLen = 0 := by
      rw [hlen, hrest, ht, lineEnd, if_pos ⟨rfl, rfl⟩]
      simp only [List.length_append, List.length_cons, List.length_nil]; omega
    have hpos : 0 < s.restLen := by
      have := h.nonneg
      have : s.restLen ≠ 0 := by simpa [more] using hm
      omega
    refine ⟨⟨by simp only; omega, fun hm' => ?_⟩, by simp only; omega⟩
    simp [more, hzero] at hm'

/-- A run over lines in order starts every iteration in step. -/
theorem seen_inStep {b : ScriptBuf} (hok : ∀ s, Seen b s → more s = true → LineOk s)
    {s : State} (hs : Seen b s) : InStep b s :=
  hs.invariant_reach (I := InStep b) (inStep_init b)
    fun t _ hr hI hm hstep => (inStep_step hI hm (hok t hr hm) hstep).1

/-- A line in order is not stopped by an undefined access. -/
theorem step_defined {s : State} {line : Line} (hl : getline s.src s.restLen = .ok line)
    (hd : Defined s) {e : Stop} (h : step s = .error e) : e = .format := by
  rcases step_error_inv h with hl' | ⟨line', hl', hr⟩
  · rw [hl] at hl'
    cases hl'
  rw [hl, Except.ok.injEq] at hl'
  subst hl'
  cases hr with
  | line => rfl
  | full hf hfull =>
    have hroom := (hd.mainkey line hl hf).1
    omega
  | name => rfl
  | nameRead hf _ hname =>
    obtain ⟨-, r, hr⟩ := hd.mainkey line hl hf
    rw [hr] at hname
    cases hname
  | keyRead hf hkv =>
    obtain ⟨kv, hkv', -⟩ := hd.subkey line hl hf
    rw [hkv'] at hkv
    cases hkv
  | store hf hkv hstore =>
    obtain ⟨kv, hkv', hstored⟩ := hd.subkey line hl hf
    obtain ⟨t, ht⟩ := hstored _ _ (Except.ok.inj (hkv'.symm.trans hkv))
    rw [ht] at hstore
    cases hstore

theorem defined_of_not_refused {s : State}
    (hstop : ∀ {line f}, getline s.src s.restLen = .ok line → ¬ Refused s line (.fault f)) :
    Defined s := by
  refine ⟨?_, ?_⟩
  · intro line hl hf
    have hroom : s.tables.items.length < ITEM_MAX_COUNT := by
      by_contra hfull
      exact hstop hl (.full hf (by omega))
    refine ⟨hroom, ?_⟩
    cases hr : fillMainkey s.src with
    | ok r => exact ⟨r, rfl⟩
    | error e =>
      obtain ⟨f, rfl, -⟩ := fillMainkey_reads _ _ hr
      exact absurd (.nameRead hf hroom hr) (hstop hl)
  · intro line hl hf
    cases hkv : getKeyValue s.src with
    | error e =>
      obtain ⟨f, rfl, -⟩ := getKeyValue_reads _ _ hkv
      exact absurd (.keyRead hf hkv) (hstop hl)
    | ok kv =>
      refine ⟨kv, rfl, ?_⟩
      rintro key value rfl
      cases hstore : storeSubkey s.tables key value with
      | ok t => exact ⟨t, rfl⟩
      | error e =>
        obtain ⟨f, rfl⟩ := storeSubkey_faults _ _ _ _ hstore
        exact absurd (.store hf hkv hstore) (hstop hl)

theorem lineOk_getline {b : ScriptBuf} {s : State} (h : InStep b s) (hm : more s = true)
    (hok : LineOk s) : ∃ line, getline s.src s.restLen = .ok line ∧
      (s.src.length : Int) ≤ line.src.length + s.restLen := by
  obtain ⟨t, X, hsrc, hrest, hne, htake⟩ := inStep_split h hm
  have hends := hok.ends
  rw [htake] at hends
  obtain ⟨line, hgot⟩ := exists_got (X := X) hends
  have hin := (got_inside hne hgot).mpr hends
  refine ⟨line, by rw [hsrc, hrest]; exact getline_eq_ok.mpr hgot, ?_⟩
  rw [hsrc, hrest]; omega

theorem inBuffer_of_lineOk {b : ScriptBuf}
    (hok : ∀ s, Seen b s → more s = true → LineOk s) : InBuffer b := by
  have hin : ∀ s, Seen b s → InStep b s := fun s hs => seen_inStep hok hs
  refine ⟨fun s hs => (hin s hs).nonneg, fun s hs => (hin s hs).pointer,
    fun s hs hm => lineOk_getline (hin s hs) hm (hok s hs hm), ?_⟩
  -- the bytes left go down with every line
  have hlower : ∀ t u, Seen b t → more t = true → step t = .ok u →
      u.restLen.toNat < t.restLen.toNat := by
    intro t u ht hm hstep
    have := (inStep_step (hin t ht) hm (hok t ht hm) hstep).2
    have := (hin u (ht.tail hm hstep)).nonneg
    omega
  obtain ⟨r, hr⟩ := whileLoop_terminates (fun s : State => s.restLen.toNat) hlower (Nat.le_refl _)
  refine ⟨_, r, hr, ?_⟩
  cases r with
  | ok s =>
    have hend := (reach_of_whileLoop hr).2
    exact .inr ⟨s, rfl, by simpa [more] using hend⟩
  | error e =>
    obtain ⟨t, ht, hm, hstep⟩ := reach_of_whileLoop_error hr
    obtain ⟨line, hl, -⟩ := lineOk_getline (hin t ht) hm (hok t ht hm)
    rw [step_defined hl (hok t ht hm).others hstep]
    exact .inl rfl

/-- `src` stays on a line of blanks, so the pointer is only right if nothing is left of it. -/
theorem blank_last {b : ScriptBuf} (h : InBuffer b) {s : State} (hs : Seen b s)
    (hm : more s = true) {line : Line} (hl : getline s.src s.restLen = .ok line)
    (hf : line.flag = .subkey) (hkv : getKeyValue s.src = .ok none) (hpos : 0 < line.lineLen) :
    s.restLen = line.lineLen := by
  have hs' := hs.tail hm (step_of_stepped hl (.blank hf hkv))
  by_contra hnz
  have hm' : more ⟨s.src, s.restLen - line.lineLen, s.tables⟩ = true := by
    simp only [more, bne_iff_ne]; omega
  obtain ⟨hle, hp⟩ := h.pointer s hs hm
  obtain ⟨hle', hp'⟩ := h.pointer _ hs' hm'
  have h0 := h.nonneg _ hs'
  have hlen := congrArg List.length (hp.symm.trans hp')
  dsimp only at hle' h0 hlen
  simp only [List.length_drop, ScriptBuf.mem, List.length_append, List.length_cons] at hlen
  omega

/-- Each line of a run that keeps to its buffer is in order. -/
theorem lineOk_of_inBuffer {b : ScriptBuf} (h : InBuffer b) {s : State} (hs : Seen b s)
    (hm : more s = true) : LineOk s := by
  obtain ⟨t, X, hsrc, hrest, hne, htake⟩ :=
    inStep_split ⟨h.nonneg s hs, h.pointer s hs⟩ hm
  obtain ⟨line, hl, hread⟩ := h.reads s hs hm
  have hgot := getline_eq_ok.mp hl
  rw [hsrc, hrest] at hgot hread
  have hends : EndsInside t := (got_inside hne hgot).mp (by omega)
  -- an undefined access ends the loop, and with neither of its two outcomes
  have hstop : ∀ {line : Line} {f}, getline s.src s.restLen = .ok line →
      ¬ Refused s line (.fault f) := by
    intro line f hl hr
    obtain ⟨n, r, hr', hend⟩ := h.ends
    obtain ⟨m, hm'⟩ := whileLoop_of_reach hs (whileLoop_error hm (step_of_refused hl hr) 0)
    have := whileLoop_unique hr' hm'
    subst this
    rcases hend with h | ⟨s', h, -⟩ <;> cases h
  refine ⟨by rw [htake]; exact hends, ?_, defined_of_not_refused hstop⟩
  rw [htake]
  intro c e y ht hcne hlen hblank he
  obtain ⟨d, z, rfl, hl', hkv⟩ := blank_line (X := X) ht hends hcne hblank hlen he
  rw [← hrest, ← hsrc] at hl'
  rw [← hsrc] at hkv
  have hzero := blank_last h hs hm hl' rfl hkv (by simp only [lineEnd]; split <;> omega)
  rw [hrest, ht] at hzero
  simp only [List.length_append, List.length_cons, lineEnd] at hzero
  split at hzero
  · next hcr =>
    obtain ⟨rfl, rfl⟩ := hcr
    refine ⟨rfl, ?_⟩
    rw [List.length_eq_zero_iff.mp (show z.length = 0 by omega)]
  · omega

/-- **The loop keeps to its buffer and terminates exactly on the runs whose lines are all
in order.** -/
theorem inBuffer_iff (b : ScriptBuf) :
    InBuffer b ↔ ∀ s, Seen b s → more s = true → LineOk s :=
  ⟨fun h _ hs hm => lineOk_of_inBuffer h hs hm, inBuffer_of_lineOk⟩

/-- The last line of a script ends with the script: the byte behind it is read. -/
theorem read_past_end : ¬ InBuffer ⟨ascii "[a]\nk=1\n", 0, [0]⟩ := by
  intro h
  have hrun : (atHead more step 1 (initState ⟨ascii "[a]\nk=1\n", 0, [0]⟩)).map
      (fun s => (s.src, s.restLen)) = some (ascii "k=1\n" ++ [0, 0], 4) := by
    decide +kernel
  obtain ⟨s, hs, hpair⟩ := Option.map_eq_some_iff.mp hrun
  obtain ⟨hsrc, hrest⟩ := Prod.mk.inj hpair
  have hline : getline (ascii "k=1\n" ++ [0, 0]) 4 = .ok ⟨4, .subkey, [0]⟩ := by
    decide +kernel
  obtain ⟨line, hl, hread⟩ :=
    h.reads s (reach_iff_atHead.mpr ⟨1, hs⟩) (by simp [more, hrest])
  rw [hsrc, hrest, hline, Except.ok.injEq] at hl
  rw [← hl, hsrc, hrest] at hread
  exact absurd hread (by decide)

end Lichee.Script

import Lichee.Script.Gpio

/- What the value parser reads. The text ends with its NUL, and the parser has it in a buffer
   that ends there: the loops then fault where they read on, and `testReads` checks the reads
   of the tests before them. `inBounds_iff` says for which texts nothing is missed. -/
namespace Lichee.Script
open Base

/-- `src[i]`. -/
def readAt (buf : List UInt8) (i : Nat) : Except Stop UInt8 :=
  match buf[i]? with
  | some c => .ok c
  | none => .error (.fault .valueBuf)

/-- The reads of the tests that choose a branch, each made only when those before it leave the
choice open. -/
def testReads (buf : List UInt8) : Except Stop Unit :=
  if strncasecmp0 buf (ascii "port:p") || strncasecmp0 buf (ascii "string:") then .ok ()
  else do
    let ch ← readAt buf 0
    if ch = chQuote then .ok ()
    else do
      -- `isdigit(src[0]) && (src[1] == 'x' || src[2] == 'X')`, else `isdigit(src[1])`
      let ch' ← readAt buf 1
      if isdigit ch && ch' != chLowerX then do
        let _ ← readAt buf 2
        .ok ()
      else .ok ()

/-- `__get_str2int` in a buffer with nothing behind it. -/
def getStr2intIn (buf : List UInt8) : Except Stop (Option Str2int) := do
  testReads buf
  getStr2int buf

/-- A text that is taken for an attribute: a word for "not set", or digits behind at most one
minus. Nothing between the brackets is no digits. -/
def Attribute (f : List UInt8) : Prop :=
  (f.map tolower = ascii "default" ∨ f.map tolower = ascii "none" ∨
    f.map tolower = ascii "null") ∨
  (∀ c ∈ f, isdigit c = true) ∨ (f.head? = some chMinus ∧ ∀ c ∈ f.tail, isdigit c = true)

/-- The fields from behind a `<` on are read or stored too far, with `n` places left: a field
without its `>`, or one more attribute than there are places. -/
inductive FieldsOverrun : Nat → List UInt8 → Prop
  | unclosed {n : Nat} {s : List UInt8} (hs : s ≠ []) (h : chGt ∉ s) : FieldsOverrun n s
  | full {f r : List UInt8} (hf : chGt ∉ f) (ha : Attribute f) : FieldsOverrun 0 (f ++ chGt :: r)
  | next {n : Nat} {f r : List UInt8} (hf : chGt ∉ f) (ha : Attribute f)
      (h : FieldsOverrun n r) : FieldsOverrun (n + 1) (f ++ chGt :: chLt :: r)

/-- The text behind a port has such fields behind its digits. -/
def PinOverrun (s : List UInt8) : Prop :=
  ∃ ds r, s = ds ++ chLt :: r ∧ (∀ c ∈ ds, isdigit c = true) ∧ FieldsOverrun 6 r

/-- The text behind `port:p` has them behind its port. -/
def PortOverrun (src : List UInt8) : Prop :=
  ∃ p s, src = p ++ s ∧ (p.map tolower = ascii "ower" ∨
    ∃ c, p = [c] ∧ (isupper c = true ∨ islower c = true)) ∧ PinOverrun s

/-- The texts that keep the parser in bounds. -/
def InBounds (text : List UInt8) : Prop :=
  if strncasecmp0 text (ascii "port:p") then ¬ PortOverrun (text.drop 6)
  else if strncasecmp0 text (ascii "string:") then True
  else if text.headD 0 = chQuote then chQuote ∈ text.tail
  else text ≠ [] ∧ ¬ (isdigit (text.headD 0) = true ∧ text.length = 1)

/-! ## Attributes -/

theorem attrDigits_isSome (s : List UInt8) (temp : UInt32) :
    (attrDigits s temp).isSome = true ↔ ∀ c ∈ s, isdigit c = true := by
  induction s generalizing temp with
  | nil => simp [attrDigits]
  | cons c s ih =>
    rw [attrDigits, List.forall_mem_cons]
    by_cases hc : isdigit c = true
    · rw [if_pos hc, ih]
      exact (and_iff_right hc).symm
    · rw [if_neg hc]
      simp [hc]

theorem tolower_facts (c : UInt8) : isdigit (tolower c) = isdigit c ∧
    (tolower c = chMinus ↔ c = chMinus) ∧ (tolower c = 0 ↔ c = 0) :=
  byte_cases (P := fun c => isdigit (tolower c) = isdigit c ∧ (tolower c = chMinus ↔ c = chMinus) ∧
    (tolower c = 0 ↔ c = 0)) (by decide +kernel) c

theorem digits_map_tolower (s : List UInt8) :
    (∀ c ∈ s.map tolower, isdigit c = true) ↔ ∀ c ∈ s, isdigit c = true := by
  rw [List.forall_mem_map]
  apply forall₂_congr
  intro c _
  rw [(tolower_facts c).1]

/-- The parser takes for an attribute what is one. -/
theorem attrWord_isSome {f : List UInt8} (h0 : 0 ∉ f) :
    (attrWord (f.map tolower)).isSome = true ↔ Attribute f := by
  have hnul : 0 ∉ f.map tolower := by
    intro h
    obtain ⟨c, hc, h⟩ := List.mem_map.mp h
    rw [(tolower_facts c).2.2] at h
    exact h0 (h ▸ hc)
  have hhead : (f.map tolower).head? = some chMinus ↔ f.head? = some chMinus := by
    cases f with
    | nil => rfl
    | cons c f =>
      rw [List.map_cons, List.head?_cons, List.head?_cons, Option.some.injEq, Option.some.injEq]
      exact (tolower_facts c).2.1
  unfold attrWord Attribute
  rw [cstr_self hnul]
  by_cases hone : f.map tolower = ascii "-1"
  · have hminus : f.head? = some chMinus := hhead.mp (by rw [hone]; rfl)
    have htail : ∀ c ∈ f.tail, isdigit c = true := by
      rw [← digits_map_tolower, List.map_tail, hone]
      decide +kernel
    simp only [hone, or_true, if_true, Option.isSome_some, hminus, true_and, true_iff]
    exact .inr (.inr htail)
  by_cases hsym : f.map tolower = ascii "default" ∨ f.map tolower = ascii "none" ∨
      f.map tolower = ascii "null"
  · have hor : f.map tolower = ascii "default" ∨ f.map tolower = ascii "none" ∨
        f.map tolower = ascii "null" ∨ f.map tolower = ascii "-1" := by
      rcases hsym with h | h | h
      · exact .inl h
      · exact .inr (.inl h)
      · exact .inr (.inr (.inl h))
    rw [if_pos hor]
    exact iff_of_true rfl (.inl hsym)
  · have hor : ¬ (f.map tolower = ascii "default" ∨ f.map tolower = ascii "none" ∨
        f.map tolower = ascii "null" ∨ f.map tolower = ascii "-1") := by
      rintro (h | h | h | h)
      · exact hsym (.inl h)
      · exact hsym (.inr (.inl h))
      · exact hsym (.inr (.inr h))
      · exact hone h
    rw [if_neg hor, or_iff_right hsym]
    -- a number, with its sign or without
    by_cases hm : f.head? = some chMinus
    · obtain ⟨t, rfl⟩ := List.head?_eq_some_iff.mp hm
      have hno : ¬ ∀ c ∈ chMinus :: t, isdigit c = true := fun h =>
        absurd (h chMinus List.mem_cons_self) (by decide)
      rw [if_pos (hhead.mpr hm), Option.isSome_map, attrDigits_isSome, ← List.map_tail,
        digits_map_tolower, or_iff_right hno]
      exact (and_iff_right hm).symm
    · rw [if_neg (mt hhead.mp hm), attrDigits_isSome, digits_map_tolower]
      exact (or_iff_left fun h => hm h.1).symm

/-! ## Fields -/

/-- The first `>` of a text is at one place. -/
theorem first_gt {f f' r r' : List UInt8} (h : f ++ chGt :: r = f' ++ chGt :: r')
    (hf : chGt ∉ f) (hf' : chGt ∉ f') : f = f' ∧ r = r' := by
  have hother : ∀ {g : List UInt8}, chGt ∉ g → ∀ c ∈ g, (c != chGt) = true := fun hg c hc =>
    bne_iff_ne.mpr fun h => hg (h ▸ hc)
  obtain ⟨hff, -, hrr⟩ := first_outside h (hother hf) (hother hf') (by decide) (by decide)
  exact ⟨hff, hrr⟩

theorem fieldsOverrun_nil (n : Nat) : ¬ FieldsOverrun n [] := by
  intro h
  generalize hs : ([] : List UInt8) = s at h
  cases h with
  | unclosed hne => exact hne hs.symm
  | full => simp at hs
  | next => simp at hs

/-- A closed field with no place left for it is missed when it is an attribute. -/
theorem fieldsOverrun_zero {f r : List UInt8} (hf : chGt ∉ f) :
    FieldsOverrun 0 (f ++ chGt :: r) ↔ Attribute f := by
  refine ⟨?_, .full hf⟩
  intro h
  generalize hs : f ++ chGt :: r = s at h
  cases h with
  | unclosed _ hno =>
    rw [← hs] at hno
    simp at hno
  | full hf' ha =>
    obtain ⟨rfl, -⟩ := first_gt hs hf hf'
    exact ha

/-- What goes wrong from a closed field on, with a place for it. -/
theorem fieldsOverrun_succ {n : Nat} {f r : List UInt8} (hf : chGt ∉ f) :
    FieldsOverrun (n + 1) (f ++ chGt :: r) ↔
      Attribute f ∧ ∃ r', r = chLt :: r' ∧ FieldsOverrun n r' := by
  refine ⟨?_, ?_⟩
  · intro h
    generalize hs : f ++ chGt :: r = s at h
    cases h with
    | unclosed _ hno =>
      rw [← hs] at hno
      simp at hno
    | next hf' ha h =>
      obtain ⟨rfl, rfl⟩ := first_gt hs hf hf'
      exact ⟨ha, _, rfl, h⟩
  · rintro ⟨ha, r', rfl, h⟩
    exact .next hf ha h

/-- A field without its `>` is read past the end of the text. -/
theorem attrText_unclosed {src : List UInt8} {ch : UInt8} (h : chGt ∉ ch :: src) (i : Nat) :
    ∃ e, attrText src ch i = .error e := by
  induction src generalizing ch i with
  | nil =>
    have hch : ¬ ch = chGt := fun hc => h (hc ▸ List.mem_cons_self)
    unfold attrText
    rw [if_neg hch]
    split
    · exact ⟨_, rfl⟩
    · exact ⟨_, rfl⟩
  | cons c src ih =>
    have hch : ¬ ch = chGt := fun hc => h (hc ▸ List.mem_cons_self)
    rw [attrText, if_neg hch]
    split
    · exact ⟨_, rfl⟩
    · obtain ⟨e, he⟩ := ih (fun hc => h (List.mem_cons_of_mem _ hc)) (i + 1)
      exact ⟨e, by rw [he, error_bind]⟩

/-- A field that is refused ends the loop, and so does one more attribute than there are
places. -/
theorem gpioAttrs_refused {f : List UInt8} (hgt : chGt ∉ f)
    (hw : attrWord (f.map tolower) = none) (hlen : f.length ≤ 128) (n : Nat)
    (value : List UInt32) {r src : List UInt8} {ch : UInt8} (hch : ch ≠ 0)
    (h : f ++ chGt :: r = ch :: src) : gpioAttrs n value ch src = .ok none := by
  rw [gpioAttrs, if_neg hch, attrText_gt hgt (by omega) h, ok_bind]
  dsimp only
  rw [hw]

theorem gpioAttrs_full {f : List UInt8} {w : UInt32} (hgt : chGt ∉ f)
    (hw : attrWord (f.map tolower) = some w) (hlen : f.length ≤ 128)
    (value : List UInt32) {r src : List UInt8} {ch : UInt8} (hch : ch ≠ 0)
    (h : f ++ chGt :: r = ch :: src) : gpioAttrs 0 value ch src = .error (.fault .fmtValue) := by
  rw [gpioAttrs, if_neg hch, attrText_gt hgt (by omega) h, ok_bind]
  dsimp only
  rw [hw]

/-- Behind an attribute's `>` a `<` begins the next field, and any other byte ends the loop. -/
theorem gpioAttrs_next {f : List UInt8} {w : UInt32} (hgt : chGt ∉ f)
    (hw : attrWord (f.map tolower) = some w) (hlen : f.length ≤ 128) (n : Nat)
    (value : List UInt32) {r r' src : List UInt8} {ch ch' : UInt8} (hch : ch ≠ 0)
    (hr : r = ch' :: r') (h : f ++ chGt :: chLt :: r = ch :: src) :
    gpioAttrs (n + 1) value ch src = gpioAttrs n (value ++ [w]) ch' r' := by
  rw [gpioAttrs_field hgt hw hlen n value hch h, if_pos rfl, hr, rd, ok_bind]

theorem gpioAttrs_last {f : List UInt8} {w : UInt32} (hgt : chGt ∉ f)
    (hw : attrWord (f.map tolower) = some w) (hlen : f.length ≤ 128) (n : Nat)
    (value : List UInt32) {r src : List UInt8} {c ch : UInt8} (hch : ch ≠ 0) (hc : c ≠ chLt)
    (h : f ++ chGt :: c :: r = ch :: src) : ∃ v, gpioAttrs (n + 1) value ch src = .ok v := by
  rw [gpioAttrs_field hgt hw hlen n value hch h, if_neg hc]
  split
  · exact ⟨_, rfl⟩
  · exact ⟨_, rfl⟩

/-- A text and its NUL begin with a bracket only where the text does. -/
theorem head_lt {s t : List UInt8} (h : s ++ [0] = chLt :: t) : ∃ s', s = chLt :: s' := by
  cases s with
  | nil => cases h
  | cons c s =>
    rw [List.cons_append] at h
    exact ⟨s, by rw [(List.cons.inj h).1]⟩

/-- Behind an attribute the loop stays in bounds where there is no further field, or where it does
over the fields that follow; `ih` is the loop over these. -/
theorem gpioAttrs_behind {n : Nat} {f r src : List UInt8} {w : UInt32} {value : List UInt32}
    {ch : UInt8} (hf : chGt ∉ f) (hw : attrWord (f.map tolower) = some w) (hflen : f.length ≤ 128)
    (hch : ch ≠ 0) (h : f ++ chGt :: (r ++ [0]) = ch :: src)
    (ih : ∀ r' src' ch', r = chLt :: r' → r' ++ [0] = ch' :: src' →
      ((∃ v, gpioAttrs n (value ++ [w]) ch' src' = .ok v) ↔ ¬ FieldsOverrun n r')) :
    (∃ v, gpioAttrs (n + 1) value ch src = .ok v) ↔
      ¬ ∃ r', r = chLt :: r' ∧ FieldsOverrun n r' := by
  by_cases hlt : ∃ r', r = chLt :: r'
  · obtain ⟨r', rfl⟩ := hlt
    obtain ⟨ch', src', hsrc⟩ : ∃ ch' src', r' ++ [0] = ch' :: src' :=
      List.exists_cons_of_ne_nil (by simp)
    rw [gpioAttrs_next hf hw hflen n value hch hsrc h, ih r' src' ch' rfl hsrc]
    apply not_congr
    refine ⟨fun h => ⟨r', rfl, h⟩, ?_⟩
    rintro ⟨_, hr, h⟩
    cases hr
    exact h
  · obtain ⟨c, t, hr⟩ : ∃ c t, r ++ [0] = c :: t := List.exists_cons_of_ne_nil (by simp)
    rw [hr] at h
    have hc : c ≠ chLt := by
      rintro rfl
      exact hlt (head_lt hr)
    refine iff_of_true (gpioAttrs_last hf hw hflen n value hch hc h) ?_
    rintro ⟨r', hr', -⟩
    exact hlt ⟨r', hr'⟩

/-- **The loop over the attributes** stays in bounds exactly when its fields do. -/
theorem gpioAttrs_inBounds (n : Nat) (value : List UInt32) {s src : List UInt8} {ch : UInt8}
    (h0 : 0 ∉ s) (hlen : s.length ≤ 127) (h : s ++ [0] = ch :: src) :
    (∃ r, gpioAttrs n value ch src = .ok r) ↔ ¬ FieldsOverrun n s := by
  induction n using Nat.strongRecOn generalizing value s ch src with
  | ind n ih =>
  by_cases hs : s = []
  · subst hs
    obtain ⟨rfl, rfl⟩ := List.cons.inj h
    unfold gpioAttrs
    rw [if_pos rfl]
    exact iff_of_true ⟨_, rfl⟩ (fieldsOverrun_nil n)
  have hch : ch ≠ 0 := by
    obtain ⟨c, t, rfl⟩ := List.exists_cons_of_ne_nil hs
    rw [List.cons_append] at h
    rw [← (List.cons.inj h).1]
    exact fun hc => h0 (hc ▸ List.mem_cons_self)
  by_cases hgt : chGt ∈ s
  · -- the field up to its `>`, and what the loop does behind it
    obtain ⟨f, r, rfl, hf⟩ := List.eq_append_cons_of_mem hgt
    simp only [List.length_append, List.length_cons] at hlen
    simp only [List.mem_append, List.mem_cons, not_or] at h0
    obtain ⟨h0f, -, h0r⟩ := h0
    have hflen : f.length ≤ 128 := by omega
    have hattr := attrWord_isSome h0f
    rw [List.append_assoc, List.cons_append] at h
    cases hw : attrWord (f.map tolower) with
    | none =>
      have hno : ¬ Attribute f := by
        rw [← hattr, hw]
        decide
      refine iff_of_true ⟨_, gpioAttrs_refused hf hw hflen n value hch h⟩ ?_
      cases n with
      | zero => exact fun h => hno ((fieldsOverrun_zero hf).mp h)
      | succ n => exact fun h => hno ((fieldsOverrun_succ hf).mp h).1
    | some w =>
      have ha : Attribute f := hattr.mp (by rw [hw]; rfl)
      cases n with
      | zero =>
        rw [gpioAttrs_full hf hw hflen value hch h, fieldsOverrun_zero hf]
        exact iff_of_false (error_not_ok _) fun h => h ha
      | succ n =>
        rw [fieldsOverrun_succ hf, and_iff_right ha]
        refine gpioAttrs_behind hf hw hflen hch h fun r' src' ch' hr hsrc => ?_
        subst hr
        rw [List.length_cons] at hlen
        exact ih n (Nat.lt_succ_self n) _ (fun h => h0r (List.mem_cons_of_mem _ h)) (by omega) hsrc
  · have hno : chGt ∉ ch :: src := by
      rw [← h, List.mem_append, not_or]
      exact ⟨hgt, by decide⟩
    -- without a `>` the copy of the field goes on over the NUL
    obtain ⟨e, he⟩ := attrText_unclosed hno 0
    rw [gpioAttrs, if_neg hch, he, error_bind]
    exact iff_of_false (error_not_ok e) fun h => h (.unclosed hs hgt)

/-! ## The port -/

/-- A byte in the digits that is none refuses the value. -/
theorem portNum_other {ds : List UInt8} (hd : ∀ c ∈ ds, isdigit c = true) {d ch : UInt8}
    (hno : isdigit d = false) (hlt : d ≠ chLt) (h0 : d ≠ 0) {r src : List UInt8}
    (h : ds ++ d :: r = ch :: src) (temp : UInt32) : portNum src ch temp = .ok none := by
  induction ds generalizing ch src temp with
  | nil =>
    obtain ⟨rfl, rfl⟩ := List.cons.inj h
    unfold portNum
    rw [if_neg hlt, hno, if_neg Bool.false_ne_true, if_neg h0]
  | cons c ds ih =>
    rw [List.cons_append] at h
    obtain ⟨rfl, htail⟩ := List.cons.inj h
    have hc := hd c List.mem_cons_self
    have hne : ¬ c = chLt := digit_ne hc rfl
    obtain ⟨ch', src', hsrc⟩ : ∃ ch' src', ds ++ d :: r = ch' :: src' :=
      List.exists_cons_of_ne_nil (by simp)
    rw [← htail, hsrc, portNum, if_neg hne, if_pos hc]
    exact ih (fun x hx => hd x (List.mem_cons_of_mem _ hx)) hsrc _

/-- What goes wrong behind the digits of a port. -/
theorem pinOverrun_split {ds t : List UInt8} {d : UInt8} (hds : ∀ c ∈ ds, isdigit c = true)
    (hno : isdigit d = false) : PinOverrun (ds ++ d :: t) ↔ d = chLt ∧ FieldsOverrun 6 t := by
  refine ⟨?_, ?_⟩
  · rintro ⟨ds', r, hs, hdigits, h⟩
    obtain ⟨-, rfl, rfl⟩ := first_outside hs hds hdigits hno rfl
    exact ⟨rfl, h⟩
  · rintro ⟨rfl, h⟩
    exact ⟨ds, t, rfl, hds, h⟩

/-- Behind the digits and a bracket the loop over the attributes decides. -/
theorem gpioValue_bracket {port : UInt32} {src ds t : List UInt8}
    (hds : ∀ c ∈ ds, isdigit c = true)
    (hport : portLetter src = .ok (some (port, ds ++ chLt :: (t ++ [0])))) (h0 : 0 ∉ t)
    (hlen : t.length ≤ 127) : (∃ r, gpioValue src = .ok r) ↔ ¬ FieldsOverrun 6 t := by
  obtain ⟨ch, rest, hsrc⟩ : ∃ ch rest, ds ++ chLt :: (t ++ [0]) = ch :: rest :=
    List.exists_cons_of_ne_nil (by simp)
  obtain ⟨ch', src', hsrc'⟩ : ∃ ch' src', t ++ [0] = ch' :: src' :=
    List.exists_cons_of_ne_nil (by simp)
  have hnum := portNum_digits hds (.inl rfl) hsrc 0
  rw [if_pos rfl, hsrc'] at hnum
  rw [hsrc] at hport
  rw [← gpioAttrs_inBounds 6 [port, .ofNat (ds.foldl (fun v ch => v * 10 + (ch.toNat - 48)) 0)]
    h0 hlen hsrc', gpioValue_behind hport hnum]
  exact map_returns

theorem gpioValue_pin {port : UInt32} {src s : List UInt8}
    (hport : portLetter src = .ok (some (port, s ++ [0]))) (h0 : 0 ∉ s) (hlen : s.length ≤ 127) :
    (∃ r, gpioValue src = .ok r) ↔ ¬ PinOverrun s := by
  have hds : ∀ c ∈ s.takeWhile isdigit, isdigit c = true := fun c hc => List.mem_takeWhile_imp hc
  have hsplit := List.takeWhile_append_dropWhile (p := isdigit) (l := s)
  generalize s.takeWhile isdigit = ds at hds hsplit
  cases hd : s.dropWhile isdigit with
  | nil =>
    rw [hd, List.append_nil] at hsplit
    subst hsplit
    -- nothing behind the digits: the loop over the attributes ends at once
    obtain ⟨ch, rest, hsrc⟩ : ∃ ch rest, ds ++ [0] = ch :: rest :=
      List.exists_cons_of_ne_nil (by simp)
    have hnum := portNum_digits hds (.inr rfl) hsrc 0
    rw [if_neg (by decide)] at hnum
    rw [hsrc] at hport
    rw [gpioValue_behind hport hnum]
    unfold gpioAttrs
    rw [if_pos rfl]
    refine iff_of_true ⟨_, rfl⟩ ?_
    rintro ⟨ds, r, rfl, -, -⟩
    exact absurd (hds chLt (by simp)) (by decide)
  | cons d t =>
    have hno : isdigit d = false := by
      have := List.head_dropWhile_not isdigit (l := s) (by rw [hd]; simp)
      simpa [hd] using this
    rw [hd] at hsplit
    subst hsplit
    rw [List.append_assoc, List.cons_append] at hport
    simp only [List.mem_append, List.mem_cons, not_or] at h0
    rw [List.length_append, List.length_cons] at hlen
    rw [pinOverrun_split hds hno]
    by_cases hlt : d = chLt
    · subst hlt
      rw [and_iff_right rfl]
      exact gpioValue_bracket hds hport h0.2.2 (by omega)
    · obtain ⟨ch, rest, hsrc⟩ : ∃ ch rest, ds ++ d :: (t ++ [0]) = ch :: rest :=
        List.exists_cons_of_ne_nil (by simp)
      rw [gpioValue, hport, ok_bind]
      dsimp only
      rw [hsrc, rd, ok_bind]
      dsimp only
      rw [portNum_other hds hno hlt (fun h => h0.2.1 h.symm) hsrc, ok_bind]
      exact iff_of_true ⟨_, rfl⟩ fun h => hlt h.1

/-- The byte behind a port that is read on is a digit or a bracket. -/
theorem pinOverrun_head {s : List UInt8} (h : PinOverrun s) : ∃ d r, s = d :: r ∧ PortEnd d := by
  obtain ⟨ds, r, rfl, hd, -⟩ := h
  cases ds with
  | nil => exact ⟨chLt, r, rfl, .inr (.inl rfl)⟩
  | cons d ds => exact ⟨d, _, rfl, .inl (hd d List.mem_cons_self)⟩

theorem portLetter_other {c : UInt8} (hc : ¬ (isupper c = true ∨ islower c = true))
    {src : List UInt8} (hpower : strncasecmp0 (c :: src) (ascii "ower") = false) :
    portLetter (c :: src) = .ok none := by
  obtain ⟨hu, hl⟩ := not_or.mp hc
  rw [portLetter, hpower, if_neg Bool.false_ne_true, rd, ok_bind]
  dsimp only
  rw [if_neg hl, if_neg hu]

/-- A literal is not found across a NUL. -/
theorem strncasecmp0_of_nul {src lit : List UInt8} (hlit : 0 ∉ lit)
    (h : 0 ∈ src.take lit.length) : strncasecmp0 src lit = false := by
  rw [strncasecmp0, beq_eq_false_iff_ne]
  intro hmap
  have hmem : tolower 0 ∈ (src.take lit.length).map tolower := List.mem_map_of_mem h
  rw [hmap] at hmem
  exact hlit hmem

theorem strncasecmp0_of_short {src lit : List UInt8} (h : src.length < lit.length) :
    strncasecmp0 src lit = false := by
  rw [strncasecmp0, beq_eq_false_iff_ne]
  intro hmap
  have hlen := congrArg List.length hmap
  rw [List.length_map, List.length_take] at hlen
  omega

/-- A literal found in a text and its NUL is in the text. -/
theorem strncasecmp0_nul {lit : List UInt8} (hlit : 0 ∉ lit) (text : List UInt8) :
    strncasecmp0 (text ++ [0]) lit = strncasecmp0 text lit := by
  by_cases hlong : lit.length ≤ text.length
  · rw [strncasecmp0, strncasecmp0, List.take_append_of_le_length hlong]
  · have hall : (text ++ [0]).take lit.length = text ++ [0] := List.take_of_length_le (by
      rw [List.length_append, List.length_singleton]
      omega)
    rw [strncasecmp0_of_short (Nat.lt_of_not_le hlong)]
    apply strncasecmp0_of_nul hlit
    rw [hall]
    exact List.mem_append_right text (List.mem_singleton_self 0)

theorem strncasecmp0_split {src lit : List UInt8} (h : strncasecmp0 src lit = true) :
    ∃ p s, src = p ++ s ∧ p.map tolower = lit := by
  rw [strncasecmp0, beq_iff_eq] at h
  exact ⟨_, _, (List.take_append_drop _ src).symm, h⟩

/-- What goes wrong behind `port:power`, and behind a port's letter. -/
theorem portOverrun_power {p s : List UInt8} (hp : p.map tolower = ascii "ower") :
    PortOverrun (p ++ s) ↔ PinOverrun s := by
  refine ⟨?_, fun hpin => ⟨p, s, rfl, .inl hp, hpin⟩⟩
  rintro ⟨p', s', hsplit, hp' | ⟨c, rfl, hc⟩, hpin⟩
  · have hpp : p.length = p'.length := by
      rw [(strncasecmp0_map hp []).1, (strncasecmp0_map hp' []).1]
    rwa [(List.append_inj hsplit hpp).2]
  · -- behind the letter `p` stands a digit or a bracket, and no `o`
    obtain ⟨d, r, rfl, hd⟩ := pinOverrun_head hpin
    have hpower := (strncasecmp0_map hp s).2
    rw [hsplit, List.singleton_append, ← strncasecmp0_nul (by decide), List.cons_append,
      List.cons_append, letter_not_power hd] at hpower
    cases hpower

theorem portOverrun_letter {c : UInt8} {s : List UInt8}
    (hpower : strncasecmp0 (c :: s) (ascii "ower") = false) :
    PortOverrun (c :: s) ↔ (isupper c = true ∨ islower c = true) ∧ PinOverrun s := by
  refine ⟨?_, fun ⟨hc, hpin⟩ => ⟨[c], s, rfl, .inr ⟨c, rfl, hc⟩, hpin⟩⟩
  rintro ⟨p', s', hsplit, hp' | ⟨c', rfl, hc'⟩, hpin⟩
  · rw [hsplit, (strncasecmp0_map hp' _).2] at hpower
    cases hpower
  · obtain ⟨rfl, rfl⟩ := List.cons.inj hsplit
    exact ⟨hc', hpin⟩

/-- **The `port:p` branch** stays in bounds exactly when its fields do. -/
theorem gpioValue_inBounds {src : List UInt8} (h0 : 0 ∉ src) (hlen : src.length ≤ 127) :
    (∃ r, gpioValue (src ++ [0]) = .ok r) ↔ ¬ PortOverrun src := by
  -- `port:power`, and otherwise one letter
  by_cases hpower : strncasecmp0 (src ++ [0]) (ascii "ower") = true
  · rw [strncasecmp0_nul (by decide)] at hpower
    obtain ⟨p, s, rfl, hp⟩ := strncasecmp0_split hpower
    have hport : portLetter (p ++ s ++ [0]) = .ok (some (0xffff, s ++ [0])) := by
      rw [List.append_assoc]
      exact portLetter_power hp _
    rw [List.length_append] at hlen
    rw [portOverrun_power hp]
    exact gpioValue_pin hport (fun h => h0 (List.mem_append_right p h)) (by omega)
  rw [Bool.not_eq_true] at hpower
  cases src with
  | nil =>
    rw [List.nil_append] at hpower ⊢
    rw [gpioValue, portLetter_other (by decide) hpower, ok_bind]
    refine iff_of_true ⟨_, rfl⟩ ?_
    rintro ⟨p, s, hsplit, -, hpin⟩
    obtain ⟨d, r, rfl, -⟩ := pinOverrun_head hpin
    simp at hsplit
  | cons c s =>
    have htext : strncasecmp0 (c :: s) (ascii "ower") = false := by
      rw [← strncasecmp0_nul (by decide), hpower]
    rw [List.cons_append] at hpower ⊢
    rw [List.length_cons] at hlen
    rw [portOverrun_letter htext]
    by_cases hc : isupper c = true ∨ islower c = true
    · rw [and_iff_right hc]
      exact gpioValue_pin (portLetter_letter hc hpower)
        (fun h => h0 (List.mem_cons_of_mem _ h)) (by omega)
    · rw [gpioValue, portLetter_other hc hpower, ok_bind]
      exact iff_of_true ⟨_, rfl⟩ fun h => hc h.1

/-! ## The other branches -/

theorem countTo_missing {stop : UInt8} {src : List UInt8} (h : stop ∉ src) {idx : Nat}
    (hlen : idx + src.length ≤ 127) : ∃ e, countTo stop src idx = .error e := by
  induction src generalizing idx with
  | nil => exact ⟨_, rfl⟩
  | cons c src ih =>
    rw [List.length_cons] at hlen
    have hc : ¬ c = stop := fun hc => h (hc ▸ List.mem_cons_self)
    rw [countTo, if_neg hc, if_neg (by omega)]
    exact ih (fun h' => h (List.mem_cons_of_mem _ h')) (by omega)

theorem hexVal_total {src : List UInt8} (h : 0 ∈ src) (temp : UInt32) :
    ∃ r, hexVal src temp = .ok r := by
  induction src generalizing temp with
  | nil => cases h
  | cons c src ih =>
    unfold hexVal
    by_cases hc : c = 0
    · exact ⟨_, if_pos hc⟩
    · have ih' := ih ((List.mem_cons.mp h).resolve_left fun h => hc h.symm)
      rw [if_neg hc]
      split
      · exact ih' _
      · split
        · exact ih' _
        · split
          · exact ih' _
          · exact ⟨_, rfl⟩

theorem decVal_total {src : List UInt8} (h : 0 ∈ src) (temp : UInt32) :
    ∃ r, decVal src temp = .ok r := by
  induction src generalizing temp with
  | nil => cases h
  | cons c src ih =>
    unfold decVal
    by_cases hc : c = 0
    · exact ⟨_, if_pos hc⟩
    · rw [if_neg hc]
      split
      · exact ih ((List.mem_cons.mp h).resolve_left fun h => hc h.symm) _
      · exact ⟨_, rfl⟩

section Text
variable {text : List UInt8}

theorem head_nul : (text ++ [0]).headD 0 = text.headD 0 := by
  cases text with
  | nil => rfl
  | cons c text => rfl

/-- A text that is neither a port nor a named or quoted string ends every loop over it. -/
theorem getStr2int_plain (h0 : 0 ∉ text) (hlen : text.length ≤ 127)
    (hport : strncasecmp0 text (ascii "port:p") = false)
    (hstring : strncasecmp0 text (ascii "string:") = false) (hquote : text.headD 0 ≠ chQuote) :
    ∃ r, getStr2int (text ++ [0]) = .ok r := by
  obtain ⟨hex, hhex⟩ := hexVal_total (show (0 : UInt8) ∈ text ++ [0] by simp) 0
  obtain ⟨dec, hdec⟩ := decVal_total (show (0 : UInt8) ∈ text ++ [0] by simp) 0
  unfold getStr2int
  rw [strncasecmp0_nul (by decide), hport, strncasecmp0_nul (by decide), hstring,
    if_neg Bool.false_ne_true, if_neg Bool.false_ne_true, head_nul, if_neg hquote]
  split
  · exact ⟨_, by rw [hhex, ok_bind]⟩
  · split
    · split
      · next hminus =>
        obtain ⟨t, rfl⟩ : ∃ t, text = chMinus :: t := by
          cases text with
          | nil => cases hminus
          | cons c t => exact ⟨t, by rw [show c = chMinus from hminus]⟩
        obtain ⟨dec, hdec⟩ := decVal_total (show (0 : UInt8) ∈ t ++ [0] by simp) 0
        exact ⟨_, by rw [List.drop_one, List.cons_append, List.tail_cons, hdec, ok_bind]⟩
      · exact ⟨_, by rw [hdec, ok_bind]⟩
    · have hcount := countTo_stop h0 [] (show 0 + text.length ≤ 127 by omega)
      exact ⟨_, by rw [hcount, ok_bind]⟩

/-- A quoted string is closed, or counted past its end. -/
theorem getStr2int_quote {t : List UInt8} (hlen : (chQuote :: t).length ≤ 127) :
    (∃ r, getStr2int (chQuote :: t ++ [0]) = .ok r) ↔ chQuote ∈ t := by
  have hport : strncasecmp0 (chQuote :: t ++ [0]) (ascii "port:p") = false :=
    strncasecmp0_cons _ _ (by decide)
  have hstring : strncasecmp0 (chQuote :: t ++ [0]) (ascii "string:") = false :=
    strncasecmp0_cons _ _ (by decide)
  rw [List.length_cons] at hlen
  unfold getStr2int
  rw [hport, hstring, if_neg Bool.false_ne_true, if_neg Bool.false_ne_true, List.cons_append,
    List.headD_cons, if_pos rfl, List.drop_one, List.tail_cons]
  by_cases hmem : chQuote ∈ t
  · obtain ⟨a, b, rfl, ha⟩ := List.eq_append_cons_of_mem hmem
    simp only [List.length_append, List.length_cons] at hlen
    refine iff_of_true ?_ hmem
    have hcount : 0 + a.length ≤ 127 := by omega
    rw [List.append_assoc, List.cons_append, countTo_stop ha _ hcount, ok_bind,
      if_pos (by simp only [List.length_cons, List.length_append]; omega)]
    exact ⟨_, rfl⟩
  · have hno : chQuote ∉ t ++ [0] := by
      rw [List.mem_append, not_or]
      exact ⟨hmem, by decide⟩
    obtain ⟨e, he⟩ := countTo_missing hno (show 0 + (t ++ [0]).length ≤ 127 by
      rw [List.length_append, List.length_singleton]
      omega)
    rw [he, error_bind]
    exact iff_of_false (error_not_ok e) hmem

/-- The tests read past the end of an empty text and of a single digit. -/
theorem testReads_plain (h0 : 0 ∉ text)
    (hport : strncasecmp0 text (ascii "port:p") = false)
    (hstring : strncasecmp0 text (ascii "string:") = false) (hquote : text.headD 0 ≠ chQuote) :
    testReads (text ++ [0]) = .ok () ↔
      text ≠ [] ∧ ¬ (isdigit (text.headD 0) = true ∧ text.length = 1) := by
  unfold testReads
  rw [strncasecmp0_nul (by decide), hport, strncasecmp0_nul (by decide), hstring]
  match text with
  | [] => exact iff_of_false (fun h => nomatch h) fun h => h.1 rfl
  | [c] =>
    have hc : ¬ c = chQuote := hquote
    show (if c = chQuote then Except.ok () else
      if isdigit c && true then (do let _ ← readAt ([c] ++ [0]) 2; .ok ()) else .ok ()) = .ok () ↔ _
    rw [if_neg hc, Bool.and_true]
    by_cases hd : isdigit c = true
    · rw [if_pos hd]
      exact iff_of_false (fun h => nomatch h) fun h => h.2 ⟨hd, rfl⟩
    · rw [if_neg hd]
      exact iff_of_true rfl ⟨by simp, fun h => hd h.1⟩
  | c :: c' :: t =>
    have hc : ¬ c = chQuote := hquote
    obtain ⟨d, r, hr⟩ : ∃ d r, t ++ [0] = d :: r := List.exists_cons_of_ne_nil (by simp)
    refine iff_of_true ?_ ⟨by simp, fun h => by simp at h⟩
    show (if c = chQuote then Except.ok () else
      if isdigit c && c' != chLowerX then (do let _ ← readAt (c :: c' :: (t ++ [0])) 2; .ok ())
      else .ok ()) = .ok ()
    rw [if_neg hc, hr]
    split
    · rfl
    · rfl

/-- A description of a GPIO stays in bounds where the loops over it do. -/
theorem getStr2intIn_port (h0 : 0 ∉ text) (hlen : text.length ≤ 127)
    (hport : strncasecmp0 text (ascii "port:p") = true) :
    (∃ r, getStr2intIn (text ++ [0]) = .ok r) ↔ ¬ PortOverrun (text.drop 6) := by
  have hport' : strncasecmp0 (text ++ [0]) (ascii "port:p") = true := by
    rw [strncasecmp0_nul (by decide), hport]
  obtain ⟨p, s, rfl, hp⟩ := strncasecmp0_split hport
  have hsix : p.length = 6 := (strncasecmp0_map hp []).1
  have hdrop : (p ++ s).drop 6 = s ∧ (p ++ s ++ [0]).drop 6 = s ++ [0] := by
    rw [List.append_assoc, List.drop_left' hsix, List.drop_left' hsix]
    exact ⟨rfl, rfl⟩
  rw [List.length_append] at hlen
  have hnul : 0 ∉ s := fun h => h0 (List.mem_append_right p h)
  have hvalue := gpioValue_inBounds hnul (by omega)
  rw [hdrop.1, ← hvalue, getStr2intIn, testReads, hport', Bool.true_or, if_pos rfl, ok_bind,
    getStr2int, if_pos hport', hdrop.2]
  apply bind_returns
  intro v
  cases v with
  | none => exact ⟨_, rfl⟩
  | some value => exact ⟨_, rfl⟩

/-- A string is always in bounds. -/
theorem getStr2intIn_string (h0 : 0 ∉ text) (hlen : text.length ≤ 127)
    (hport : strncasecmp0 text (ascii "port:p") = false)
    (hstring : strncasecmp0 text (ascii "string:") = true) :
    ∃ r, getStr2intIn (text ++ [0]) = .ok r := by
  have hport' : strncasecmp0 (text ++ [0]) (ascii "port:p") = false := by
    rw [strncasecmp0_nul (by decide), hport]
  have hstring' : strncasecmp0 (text ++ [0]) (ascii "string:") = true := by
    rw [strncasecmp0_nul (by decide), hstring]
  obtain ⟨p, s, rfl, hp⟩ := strncasecmp0_split hstring
  have hseven : p.length = 7 := (strncasecmp0_map hp []).1
  rw [List.length_append] at hlen
  have hnul : 0 ∉ s := fun h => h0 (List.mem_append_right p h)
  have hcount := countTo_stop hnul [] (show 0 + s.length ≤ 127 by omega)
  rw [getStr2intIn, testReads, hport', hstring', Bool.false_or, if_pos rfl, ok_bind, getStr2int,
    hport', if_neg Bool.false_ne_true, hstring', if_pos rfl, List.append_assoc,
    List.drop_left' hseven, hcount]
  exact ⟨_, rfl⟩

/-- **Which texts keep the value parser in bounds.** -/
theorem inBounds_iff (h0 : 0 ∉ text) (hlen : text.length ≤ 127) :
    (∃ r, getStr2intIn (text ++ [0]) = .ok r) ↔ InBounds text := by
  unfold InBounds
  cases hport : strncasecmp0 text (ascii "port:p") with
  | true =>
    rw [if_pos rfl]
    exact getStr2intIn_port h0 hlen hport
  | false =>
  rw [if_neg Bool.false_ne_true]
  cases hstring : strncasecmp0 text (ascii "string:") with
  | true =>
    rw [if_pos rfl]
    exact iff_of_true (getStr2intIn_string h0 hlen hport hstring) trivial
  | false =>
  rw [if_neg Bool.false_ne_true, getStr2intIn]
  by_cases hquote : text.headD 0 = chQuote
  · obtain ⟨t, rfl⟩ : ∃ t, text = chQuote :: t := by
      cases text with
      | nil => cases hquote
      | cons c t => exact ⟨t, by rw [show c = chQuote from hquote]⟩
    have hreads : testReads (chQuote :: t ++ [0]) = .ok () := by
      rw [testReads, strncasecmp0_nul (by decide), hport, strncasecmp0_nul (by decide), hstring]
      rfl
    rw [if_pos hquote, hreads, ok_bind]
    exact getStr2int_quote hlen
  · obtain ⟨r, hr⟩ := getStr2int_plain h0 hlen hport hstring hquote
    rw [if_neg hquote, ← testReads_plain h0 hport hstring hquote, hr]
    refine ⟨?_, ?_⟩
    · intro ⟨r', hr'⟩
      obtain ⟨u, hu, -⟩ := bind_eq_ok.mp hr'
      exact hu
    · intro hu
      exact ⟨r, by rw [hu, ok_bind]⟩

end Text

/-- A closed string stays in the buffer. -/
theorem inBounds_iff_closed : ∃ r, getStr2intIn (ascii "\"ab\"" ++ [0]) = .ok r :=
  (inBounds_iff (by decide +kernel) (by decide +kernel)).mpr (by
    unfold InBounds
    rw [if_neg (by decide +kernel), if_neg (by decide +kernel), if_pos (by decide +kernel)]
    decide +kernel)

/-- A digit alone is followed by two reads, a string without its second quote and a field without
its `>` are read on, and a seventh attribute is stored behind the eight words. -/
theorem outOfBounds_values :
    getStr2intIn (ascii "5" ++ [0]) = .error (.fault .valueBuf) ∧
    getStr2intIn (ascii "\"abc" ++ [0]) = .error (.fault .valueBuf) ∧
    getStr2intIn (ascii "port:PA01<1" ++ [0]) = .error (.fault .valueBuf) ∧
    getStr2intIn (ascii "port:PA01<1><1><1><1><1><1><1>" ++ [0]) = .error (.fault .fmtValue) := by
  decide +kernel

end Lichee.Script

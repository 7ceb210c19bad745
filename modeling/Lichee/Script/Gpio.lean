import Lichee.Script.Locality

/- GPIO descriptions, `port:PA07<1><default><2><0>`: a port letter or `power`, the digits of the
   pin and one to four attributes. `GpioText` is such a value with any number of attributes,
   `GpioText.words` what it stands for, and `gpio_compiled` what the compiler makes of it. A
   number is stored in a word, so it is taken modulo 2^32, as `literalWord` does, and a value is
   read from a buffer of 128 bytes, so a longer one is cut (`gpio_apart`). -/
namespace Lichee.Script
open Base

/-! ## The grammar -/

/-- `port:P` and a letter, or `port:power`, in any letter case. -/
inductive GpioPort where
  | letter (p : List UInt8) (c : UInt8) (hp : p.map tolower = ascii "port:p")
      (hc : isupper c = true ∨ islower c = true)
  | power (p : List UInt8) (hp : p.map tolower = ascii "port:power")

def GpioPort.text : GpioPort → List UInt8
  | .letter p c .. => p ++ [c]
  | .power p _ => p

/-- The index of the letter, from 1 on, or 0xffff. -/
def GpioPort.word : GpioPort → UInt32
  | .letter _ c .. => .ofNat ((tolower c).toNat - 0x60)
  | .power .. => 0xffff

/-- An integer, or one of the words for "not set" in any letter case. -/
inductive GpioAttr where
  | number (neg : Bool) (ds : List UInt8) (ne : ds ≠ []) (digits : ∀ c ∈ ds, isdigit c = true)
  | symbol (s : List UInt8)
      (hs : s.map tolower = ascii "default" ∨ s.map tolower = ascii "none" ∨
        s.map tolower = ascii "null")

def GpioAttr.text : GpioAttr → List UInt8
  | .number neg ds .. => (if neg then [chMinus] else []) ++ ds
  | .symbol s _ => s

def GpioAttr.word : GpioAttr → UInt32
  | .number neg ds .. => literalWord neg ds
  | .symbol .. => -1

/-- The attributes in their brackets. -/
def attrFields (as : List GpioAttr) : List UInt8 := as.flatMap fun a => chLt :: (a.text ++ [chGt])

/-- A GPIO description that fits the value buffer. -/
structure GpioText where
  port : GpioPort
  digits : List UInt8
  attrs : List GpioAttr
  digits_digit : ∀ c ∈ digits, isdigit c = true
  short : (port.text ++ (digits ++ attrFields attrs)).length ≤ 127

def GpioText.text (G : GpioText) : List UInt8 := G.port.text ++ (G.digits ++ attrFields G.attrs)

/-- The six words: port, pin, the attributes, and -1 for those not given. -/
def GpioText.words (G : GpioText) : List UInt32 :=
  G.port.word :: .ofNat (digitsVal G.digits) ::
    (G.attrs.map (·.word) ++ List.replicate (4 - G.attrs.length) (-1))

/-- What a record adds to the key area and to the value area. -/
structure Emitted (t t' : Tables) (key : List UInt8) (type : DataType) (words : List UInt32) :
    Prop where
  keyData : t'.keyData = t.keyData ++ (padTo KEY_MAX_LEN (cstr key) ++
    (le32 (.ofNat t.valueIdx) ++ le32 (.ofNat words.length ||| type.code <<< 16)))
  valueData : t'.valueData = t.valueData ++ words.flatMap le32
  valueIdx : t'.valueIdx = t.valueIdx + words.length

/-! ## The port -/

theorem letter_word {c : UInt8} (h : isupper c = true ∨ islower c = true) :
    (if islower c then some (c.toUInt32 - 0x61 + 1)
      else if isupper c then some (c.toUInt32 - 0x41 + 1) else none) =
        some (.ofNat ((tolower c).toNat - 0x60)) :=
  byte_cases (P := fun c => isupper c = true ∨ islower c = true →
    (if islower c then some (c.toUInt32 - 0x61 + 1)
      else if isupper c then some (c.toUInt32 - 0x41 + 1) else none) =
        some (UInt32.ofNat ((tolower c).toNat - 0x60))) (by decide +kernel) c h

/-- What stands behind a port: a digit, a bracket or the end. -/
def PortEnd (c : UInt8) : Prop := isdigit c = true ∨ c = chLt ∨ c = 0

theorem portEnd_tolower {c : UInt8} (h : PortEnd c) : tolower c ≠ 0x77 := by
  rcases h with h | rfl | rfl
  · rw [digit_tolower c h]
    exact digit_ne h rfl
  · decide
  · decide

/-- A letter is no `power`, with a number behind it. -/
theorem letter_not_power {c d : UInt8} (h : PortEnd d) (src : List UInt8) :
    strncasecmp0 (c :: d :: src) (ascii "ower") = false := by
  have hd := portEnd_tolower h
  rw [strncasecmp0, beq_eq_false_iff_ne]
  intro heq
  have hsnd := congrArg (fun l => l[1]?) heq
  exact hd (Option.some.inj hsnd)

theorem portLetter_letter {c : UInt8} (hc : isupper c = true ∨ islower c = true)
    {src : List UInt8} (hpower : strncasecmp0 (c :: src) (ascii "ower") = false) :
    portLetter (c :: src) = .ok (some (.ofNat ((tolower c).toNat - 0x60), src)) := by
  have hw := letter_word hc
  unfold portLetter
  rw [hpower, if_neg Bool.false_ne_true, rd, ok_bind]
  dsimp only
  by_cases hl : islower c = true
  · rw [if_pos hl] at hw ⊢
    rw [Option.some.inj hw]
  · rw [if_neg hl] at hw ⊢
    by_cases hu : isupper c = true
    · rw [if_pos hu] at hw ⊢
      rw [Option.some.inj hw]
    · rw [if_neg hu] at hw
      cases hw

/-- A literal is found in any letter case. -/
theorem strncasecmp0_map {p lit : List UInt8} (hp : p.map tolower = lit) (src : List UInt8) :
    p.length = lit.length ∧ strncasecmp0 (p ++ src) lit = true := by
  have hlen : p.length = lit.length := by
    rw [← hp, List.length_map]
  rw [strncasecmp0, ← hlen, List.take_left, hp, beq_self_eq_true]
  exact ⟨rfl, rfl⟩

theorem portLetter_power {p : List UInt8} (hp : p.map tolower = ascii "ower") (src : List UInt8) :
    portLetter (p ++ src) = .ok (some (0xffff, src)) := by
  obtain ⟨hlen, hcmp⟩ := strncasecmp0_map hp src
  rw [portLetter, if_pos hcmp, List.drop_left' (by rw [hlen]; rfl)]

/-! ## The pin -/

/-- The digits of the pin, up to a bracket or the end of the text; the pointer stays on the
end. -/
theorem portNum_digits {ds : List UInt8} (hd : ∀ c ∈ ds, isdigit c = true) {e ch : UInt8}
    (he : e = chLt ∨ e = 0) {r src : List UInt8} (h : ds ++ e :: r = ch :: src) (n : Nat) :
    portNum src ch (.ofNat n) = .ok (some (.ofNat (ds.foldl (fun v ch => v * 10 +
      (ch.toNat - 48)) n), if e = chLt then r else e :: r)) := by
  induction ds generalizing ch src n with
  | nil =>
    obtain ⟨rfl, rfl⟩ := List.cons.inj h
    unfold portNum
    rcases he with rfl | rfl
    · rw [if_pos rfl, if_pos rfl]
      rfl
    · have h0 : ¬ (0 : UInt8) = chLt := by decide
      rw [if_neg h0, if_neg h0, if_neg (by decide), if_pos rfl]
      rfl
  | cons c ds ih =>
    rw [List.cons_append] at h
    obtain ⟨rfl, htail⟩ := List.cons.inj h
    have hc := hd c List.mem_cons_self
    have hne : ¬ c = chLt := digit_ne hc rfl
    obtain ⟨ch', src', hsrc⟩ : ∃ ch' src', ds ++ e :: r = ch' :: src' :=
      List.exists_cons_of_ne_nil (by simp)
    rw [← htail, hsrc, portNum, if_neg hne, if_pos hc, decStep_ofNat hc, List.foldl_cons]
    exact ih (fun x hx => hd x (List.mem_cons_of_mem _ hx)) hsrc _

/-! ## The attributes -/

/-- The text of an attribute, in lower case, up to its `>`. -/
theorem attrText_gt {f : List UInt8} (hf : chGt ∉ f) {i : Nat} (hi : i + f.length ≤ 128)
    {r src : List UInt8} {ch : UInt8} (h : f ++ chGt :: r = ch :: src) :
    attrText src ch i = .ok (f.map tolower, r) := by
  induction f generalizing ch src i with
  | nil =>
    obtain ⟨rfl, rfl⟩ := List.cons.inj h
    unfold attrText
    rw [if_pos rfl]
    rfl
  | cons c f ih =>
    rw [List.cons_append] at h
    obtain ⟨rfl, htail⟩ := List.cons.inj h
    rw [List.length_cons] at hi
    have hne : ¬ c = chGt := fun hc => hf (hc ▸ List.mem_cons_self)
    obtain ⟨ch', src', hsrc⟩ : ∃ ch' src', f ++ chGt :: r = ch' :: src' :=
      List.exists_cons_of_ne_nil (by simp)
    rw [← htail, hsrc, attrText, if_neg hne, if_neg (by omega)]
    dsimp only
    rw [ih (fun h => hf (List.mem_cons_of_mem _ h)) (by omega) hsrc, ok_bind]
    rfl

theorem attrDigits_digits {ds : List UInt8} (hd : ∀ c ∈ ds, isdigit c = true) (n : Nat) :
    attrDigits ds (.ofNat n) =
      some (.ofNat (ds.foldl (fun v ch => v * 10 + (ch.toNat - 48)) n)) := by
  induction ds generalizing n with
  | nil => rfl
  | cons c ds ih =>
    have hc := hd c List.mem_cons_self
    rw [attrDigits, if_pos hc, decStep_ofNat hc, List.foldl_cons]
    exact ih (fun x hx => hd x (List.mem_cons_of_mem _ hx)) _

theorem digits_lower {ds : List UInt8} (hd : ∀ c ∈ ds, isdigit c = true) :
    ds.map tolower = ds := by
  calc ds.map tolower = ds.map id := List.map_congr_left fun c hc => digit_tolower c (hd c hc)
    _ = ds := List.map_id ds

theorem digits_nul {ds : List UInt8} (hd : ∀ c ∈ ds, isdigit c = true) : 0 ∉ ds := by
  intro h
  exact absurd (hd 0 h) (by decide)

/-- A text that starts like an integer is none of the words. -/
theorem not_symbol {c : UInt8} (hc : isdigit c = true ∨ c = chMinus) (s : List UInt8) :
    ¬ (c :: s = ascii "default" ∨ c :: s = ascii "none" ∨ c :: s = ascii "null") := by
  have hlow : c ≠ 0x64 ∧ c ≠ 0x6e := by
    rcases hc with hc | rfl
    · exact ⟨digit_ne hc rfl, digit_ne hc rfl⟩
    · decide
  rintro (h | h | h)
  · exact hlow.1 (List.cons.inj h).1
  · exact hlow.2 (List.cons.inj h).1
  · exact hlow.2 (List.cons.inj h).1

/-- The word of an integer. The spelling `-1` is among the words for "not set", with the same
result. -/
theorem attrWord_number {neg : Bool} {ds : List UInt8} (ne : ds ≠ [])
    (hd : ∀ c ∈ ds, isdigit c = true) :
    attrWord ((if neg then [chMinus] else []) ++ ds) = some (literalWord neg ds) := by
  have hdigits := attrDigits_digits hd 0
  cases neg with
  | false =>
    obtain ⟨d, ds', rfl⟩ := List.exists_cons_of_ne_nil ne
    have hdd := hd d List.mem_cons_self
    have hsym := not_symbol (.inl hdd) ds'
    have hminus : ¬ d = chMinus := digit_ne hdd rfl
    have hone : ¬ d :: ds' = ascii "-1" := fun h => hminus (List.cons.inj h).1
    rw [attrWord, if_neg Bool.false_ne_true, List.nil_append, cstr_self (digits_nul hd)]
    rw [if_neg (by rintro (h | h | h | h) <;> simp_all), if_neg (by simpa using hminus)]
    exact hdigits
  | true =>
    have hsym := not_symbol (.inr rfl) ds
    have hnul : 0 ∉ chMinus :: ds := by
      rw [List.mem_cons, not_or]
      exact ⟨by decide, digits_nul hd⟩
    rw [attrWord, if_pos rfl, List.singleton_append, cstr_self hnul]
    by_cases hone : chMinus :: ds = ascii "-1"
    · rw [if_pos (by simp [hone]), (List.cons.inj hone).2]
      rfl
    · rw [if_neg (by rintro (h | h | h | h) <;> simp_all), List.head?_cons, if_pos rfl,
        List.tail_cons]
      rw [show (0 : UInt32) = .ofNat 0 from rfl, hdigits]
      rfl

theorem attrWord_text (a : GpioAttr) : attrWord (a.text.map tolower) = some a.word := by
  cases a with
  | number neg ds ne digits =>
    have hlow : (GpioAttr.number neg ds ne digits).text.map tolower =
        (if neg then [chMinus] else []) ++ ds := by
      cases neg
      · exact digits_lower digits
      · exact congrArg (chMinus :: ·) (digits_lower digits)
    rw [hlow]
    exact attrWord_number ne digits
  | symbol s hs =>
    show attrWord (s.map tolower) = some (-1)
    rcases hs with hs | hs | hs <;> rw [hs] <;> decide +kernel

/-- A text that is an integer or a word in lower case holds no bracket and no NUL. -/
theorem lower_plain {s : List UInt8} (hs : ∀ c ∈ s.map tolower, isdigit c = true ∨ c = chMinus ∨
    islower c = true) : chGt ∉ s ∧ 0 ∉ s := by
  refine ⟨?_, ?_⟩
  · intro h
    exact absurd (hs _ (List.mem_map_of_mem h)) (by decide)
  · intro h
    exact absurd (hs _ (List.mem_map_of_mem h)) (by decide)

theorem attr_lower (a : GpioAttr) : ∀ c ∈ a.text.map tolower, isdigit c = true ∨ c = chMinus ∨
    islower c = true := by
  cases a with
  | number neg ds ne digits =>
    intro c hc
    obtain ⟨d, hd, rfl⟩ := List.mem_map.mp hc
    rcases List.mem_append.mp hd with h | h
    · cases neg with
      | false => cases h
      | true =>
        rw [List.mem_singleton.mp h]
        exact .inr (.inl rfl)
    · rw [digit_tolower d (digits d h)]
      exact .inl (digits d h)
  | symbol s hs =>
    intro c hc
    have hword : ∀ w ∈ [ascii "default", ascii "none", ascii "null"], ∀ c ∈ w,
        islower c = true := by decide +kernel
    refine .inr (.inr (hword (s.map tolower) ?_ c hc))
    simpa using hs

theorem attr_ne (a : GpioAttr) : a.text ≠ [] := by
  cases a with
  | number neg ds ne digits => exact List.append_ne_nil_of_right_ne_nil _ ne
  | symbol s hs =>
    show s ≠ []
    intro h
    subst h
    rcases hs with hs | hs | hs <;> cases hs

/-- One attribute of the loop: its word, and what the byte behind its `>` decides. -/
theorem gpioAttrs_field {f : List UInt8} {w : UInt32} (hgt : chGt ∉ f)
    (hw : attrWord (f.map tolower) = some w) (hlen : f.length ≤ 128) (n : Nat)
    (value : List UInt32) {r src : List UInt8} {c ch : UInt8} (hch : ch ≠ 0)
    (h : f ++ chGt :: c :: r = ch :: src) :
    gpioAttrs (n + 1) value ch src =
      if c = chLt then do
        let (ch, src) ← rd .valueBuf r
        gpioAttrs n (value ++ [w]) ch src
      else if c = 0 then .ok (some (value ++ [w]))
      else .ok none := by
  rw [gpioAttrs, if_neg hch, attrText_gt hgt (by omega) h, ok_bind]
  dsimp only
  rw [hw]
  rfl

theorem gpioAttrs_attr (a : GpioAttr) (n : Nat) (value : List UInt32) {r src : List UInt8}
    {c ch : UInt8} (hlen : a.text.length ≤ 128) (h : a.text ++ chGt :: c :: r = ch :: src) :
    gpioAttrs (n + 1) value ch src =
      if c = chLt then do
        let (ch, src) ← rd .valueBuf r
        gpioAttrs n (value ++ [a.word]) ch src
      else if c = 0 then .ok (some (value ++ [a.word]))
      else .ok none := by
  obtain ⟨hgt, hnul⟩ := lower_plain (attr_lower a)
  obtain ⟨x, l, hx⟩ := List.exists_cons_of_ne_nil (attr_ne a)
  have hch : ch ≠ 0 := by
    rw [hx, List.cons_append] at h
    rw [← (List.cons.inj h).1]
    intro h0
    exact hnul (by rw [hx, h0]; exact List.mem_cons_self)
  exact gpioAttrs_field hgt (attrWord_text a) hlen n value hch h

/-- The loop over the attributes: each word goes to the next place while there is one. -/
theorem gpioAttrs_fields (a : GpioAttr) (as : List GpioAttr) {n : Nat} (hn : as.length < n)
    (value : List UInt32) {r src : List UInt8} {ch : UInt8}
    (hlen : (attrFields (a :: as)).length ≤ 128)
    (h : a.text ++ chGt :: (attrFields as ++ 0 :: r) = ch :: src) :
    gpioAttrs n value ch src = .ok (some (value ++ (a :: as).map (·.word))) := by
  induction as generalizing a n value ch src with
  | nil =>
    obtain ⟨m, rfl⟩ : ∃ m, n = m + 1 := ⟨n - 1, by rw [List.length_nil] at hn; omega⟩
    have ha : a.text.length ≤ 128 := by
      simp only [attrFields, List.flatMap_cons, List.length_append, List.length_cons] at hlen
      omega
    rw [gpioAttrs_attr a m value ha h, if_neg (by decide), if_pos rfl]
    rfl
  | cons b as ih =>
    obtain ⟨m, rfl⟩ : ∃ m, n = m + 1 := ⟨n - 1, by rw [List.length_cons] at hn; omega⟩
    have hfields : attrFields (a :: b :: as) = chLt :: (a.text ++ [chGt]) ++ attrFields (b :: as) :=
      rfl
    rw [hfields, List.length_append, List.length_cons, List.length_append] at hlen
    have hb : attrFields (b :: as) ++ 0 :: r =
        chLt :: (b.text ++ chGt :: (attrFields as ++ 0 :: r)) := by
      simp [attrFields]
    rw [hb] at h
    obtain ⟨ch', src', hsrc⟩ : ∃ ch' src', b.text ++ chGt :: (attrFields as ++ 0 :: r) =
        ch' :: src' := List.exists_cons_of_ne_nil (by simp)
    rw [gpioAttrs_attr a m value (by omega) h, if_pos rfl, hsrc, rd, ok_bind]
    dsimp only
    rw [List.length_cons] at hn
    rw [ih b (by omega) _ (by omega) hsrc, List.append_assoc]
    rfl

/-! ## The whole value -/

/-- Behind a port and its number the loop over the attributes gives the value. -/
theorem gpioValue_behind {port num : UInt32} {src rest rest' : List UInt8} {ch ch' : UInt8}
    (hport : portLetter src = .ok (some (port, ch :: rest)))
    (hnum : portNum rest ch 0 = .ok (some (num, ch' :: rest'))) :
    gpioValue src = (gpioAttrs 6 [port, num] ch' rest').map (·.bind gpioFill) := by
  rw [gpioValue, hport, ok_bind]
  dsimp only
  rw [rd, ok_bind]
  dsimp only
  rw [hnum, ok_bind]
  dsimp only
  rw [rd, ok_bind]
  dsimp only
  cases gpioAttrs 6 [port, num] ch' rest' with
  | error e => rfl
  | ok value => cases value <;> rfl

/-- `__get_str2int` from the port on. -/
theorem gpioValue_text {port : UInt32} {src ds : List UInt8} {d : UInt8} {as : List GpioAttr}
    {r rest : List UInt8} (hport : portLetter src = .ok (some (port, d :: rest)))
    (hrest : d :: rest = ds ++ (attrFields as ++ 0 :: r)) (hd : ∀ c ∈ ds, isdigit c = true)
    (hn : as.length ≤ 6) (hlen : (attrFields as).length ≤ 128) :
    gpioValue src = .ok (gpioFill (port :: .ofNat (digitsVal ds) :: as.map (·.word))) := by
  cases as with
  | nil =>
    have hnum := portNum_digits hd (.inr rfl) (r := r) (e := 0) hrest.symm 0
    rw [if_neg (by decide)] at hnum
    rw [gpioValue_behind hport hnum]
    unfold gpioAttrs
    rw [if_pos rfl]
    rfl
  | cons a as =>
    have hfields : attrFields (a :: as) ++ 0 :: r =
        chLt :: (a.text ++ chGt :: (attrFields as ++ 0 :: r)) := by
      simp [attrFields]
    rw [hfields] at hrest
    obtain ⟨ch, src', hsrc⟩ : ∃ ch src', a.text ++ chGt :: (attrFields as ++ 0 :: r) =
        ch :: src' := List.exists_cons_of_ne_nil (by simp)
    have hnum := portNum_digits hd (.inl rfl) hrest.symm 0
    rw [if_pos rfl, hsrc] at hnum
    rw [List.length_cons] at hn
    rw [gpioValue_behind hport hnum, gpioAttrs_fields a as (by omega) _ hlen hsrc]
    rfl

theorem port_text (port : GpioPort) {d : UInt8} (hd : PortEnd d) (rest : List UInt8) :
    strncasecmp0 (port.text ++ d :: rest) (ascii "port:p") = true ∧
      portLetter ((port.text ++ d :: rest).drop 6) = .ok (some (port.word, d :: rest)) := by
  cases port with
  | letter p c hp hc =>
    obtain ⟨hlen, hcmp⟩ := strncasecmp0_map hp (c :: d :: rest)
    have hsix : p.length = 6 := hlen
    show strncasecmp0 (p ++ [c] ++ d :: rest) _ = true ∧
      portLetter ((p ++ [c] ++ d :: rest).drop 6) = _
    rw [List.append_assoc, List.singleton_append, List.drop_left' hsix]
    exact ⟨hcmp, portLetter_letter hc (letter_not_power hd rest)⟩
  | power p hp =>
    have htake : (p.take 6).map tolower = ascii "port:p" := by
      rw [List.map_take, hp]
      decide +kernel
    have hdrop : (p.drop 6).map tolower = ascii "ower" := by
      rw [List.map_drop, hp]
      decide +kernel
    obtain ⟨hlen, hcmp⟩ := strncasecmp0_map htake (p.drop 6 ++ d :: rest)
    have hsix : (p.take 6).length = 6 := hlen
    show strncasecmp0 (p ++ d :: rest) _ = true ∧
      portLetter ((p ++ d :: rest).drop 6) = .ok (some (0xffff, d :: rest))
    rw [← List.take_append_drop 6 p, List.append_assoc, List.drop_left' hsix]
    exact ⟨hcmp, portLetter_power hdrop _⟩

/-- **`__get_str2int` on a GPIO description**: what is left to decide is the number of
attributes. -/
theorem getStr2int_gpio (G : GpioText) (hn : G.attrs.length ≤ 6) :
    getStr2int (padTo VALUE_MAX_LEN G.text) =
      .ok ((gpioFill (G.port.word :: .ofNat (digitsVal G.digits) :: G.attrs.map (·.word))).map
        fun value => ⟨.gpio, value ++ [0, 0], padTo VALUE_MAX_LEN G.text⟩) := by
  have hshort := G.short
  have htext : G.text.length ≤ 127 := hshort
  rw [padTo_succ htext, GpioText.text, List.append_assoc, List.append_assoc]
  generalize zeros (127 - _) = r
  obtain ⟨d, rest, hrest, hd⟩ : ∃ d rest, d :: rest = G.digits ++ (attrFields G.attrs ++ 0 :: r) ∧
      PortEnd d := by
    cases hds : G.digits with
    | nil =>
      cases G.attrs with
      | nil => exact ⟨0, r, rfl, .inr (.inr rfl)⟩
      | cons a as => exact ⟨chLt, _, rfl, .inr (.inl rfl)⟩
    | cons c ds => exact ⟨c, _, rfl, .inl (G.digits_digit c (by rw [hds]; simp))⟩
  rw [← hrest]
  obtain ⟨hcmp, hport⟩ := port_text G.port hd rest
  have hlen : (attrFields G.attrs).length ≤ 128 := by
    rw [List.length_append, List.length_append] at hshort
    omega
  unfold getStr2int
  rw [if_pos hcmp, gpioValue_text hport hrest G.digits_digit hn hlen, ok_bind]
  cases gpioFill _ with
  | none => rfl
  | some value => rfl

theorem gpioFill_words (G : GpioText) (h1 : 1 ≤ G.attrs.length) (h4 : G.attrs.length ≤ 4) :
    gpioFill (G.port.word :: .ofNat (digitsVal G.digits) :: G.attrs.map (·.word)) =
      some G.words := by
  have hlen : (G.port.word :: .ofNat (digitsVal G.digits) :: G.attrs.map (·.word)).length =
      G.attrs.length + 2 := by
    rw [List.length_cons, List.length_cons, List.length_map]
  rw [gpioFill, hlen, if_pos (by omega),
    show 6 - (G.attrs.length + 2) = 4 - G.attrs.length by omega]
  rfl

theorem words_length (G : GpioText) (h4 : G.attrs.length ≤ 4) : G.words.length = 6 := by
  simp only [GpioText.words, List.length_cons, List.length_append, List.length_map,
    List.length_replicate]
  omega

/-! ## The record -/

/-- The record of a key line is stored by the value parser's result. -/
theorem step_subkey {s s' : State} {key value : List UInt8}
    (hp : produce s = .ok (.subkey key value)) (hstep : step s = .ok s') :
    key.length ≤ 31 ∧ storeSubkey s.tables key value = .ok s'.tables := by
  obtain ⟨p, hp', hstore⟩ := step_produce hstep
  rw [hp] at hp'
  cases hp'
  refine ⟨?_, hstore⟩
  unfold produce at hp
  obtain ⟨line, -, hp⟩ := bind_eq_ok.mp hp
  cases hf : line.flag with
  | comment => rw [hf] at hp; cases hp
  | null => rw [hf] at hp; cases hp
  | error => rw [hf] at hp; cases hp
  | mainkey =>
    rw [hf, readLine] at hp
    obtain ⟨r, -, hp⟩ := bind_eq_ok.mp hp
    cases r <;> cases hp
  | subkey =>
    rw [hf, readLine] at hp
    obtain ⟨r, hr, hp⟩ := bind_eq_ok.mp hp
    cases r with
    | none => cases hp
    | some kv =>
      obtain ⟨k, v⟩ := kv
      cases hp
      exact (getKeyValue_length hr).1

/-- **GPIO descriptions are parsed by their grammar.** One to four attributes make a record
with the six words of the description; none, five or six are refused. -/
theorem gpio_compiled (G : GpioText) :
    (1 ≤ G.attrs.length → G.attrs.length ≤ 4 →
      (∃ r, getStr2int (padTo VALUE_MAX_LEN G.text) = .ok (some r) ∧ r.type = .gpio ∧
        r.fmtValue.take 6 = G.words) ∧
      ∀ s s' key, produce s = .ok (.subkey key G.text) → step s = .ok s' →
        Emitted s.tables s'.tables key .gpio G.words) ∧
    (G.attrs.length = 0 ∨ G.attrs.length = 5 ∨ G.attrs.length = 6 →
      getStr2int (padTo VALUE_MAX_LEN G.text) = .ok none) := by
  refine ⟨?_, ?_⟩
  · intro h1 h4
    have hlen := words_length G h4
    have hget := getStr2int_gpio G (by omega)
    rw [gpioFill_words G h1 h4, Option.map_some] at hget
    have htake : (G.words ++ [0, 0]).take 6 = G.words := List.take_left' hlen
    refine ⟨⟨_, hget, rfl, htake⟩, ?_⟩
    intro s s' key hp hstep
    obtain ⟨hkey, hstore⟩ := step_subkey hp hstep
    obtain ⟨-, -, item, -, htables⟩ := (storeSubkey_some_eq_ok hget hkey).mp hstore
    rw [htables]
    refine ⟨?_, ?_, ?_⟩
    · rw [hlen]
      rfl
    · show _ ++ ((G.words ++ [0, 0]).take 6).flatMap le32 = _
      rw [htake]
    · rw [hlen]
      rfl
  · intro h
    have hlen : (G.port.word :: .ofNat (digitsVal G.digits) :: G.attrs.map (·.word)).length =
        G.attrs.length + 2 := by
      rw [List.length_cons, List.length_cons, List.length_map]
    rw [getStr2int_gpio G (by omega), gpioFill, hlen, if_neg (by omega)]
    rfl

/-- `port:PA07<1><default>`. -/
def pinA07 : GpioText where
  port := .letter (ascii "port:P") 0x41 rfl (.inl rfl)
  digits := ascii "07"
  attrs := [.number false (ascii "1") (by decide) (by decide +kernel),
    .symbol (ascii "default") (.inl (by decide +kernel))]
  digits_digit := by decide +kernel
  short := by decide +kernel

/-- A key line with a pin of port A, behind a section line. -/
theorem gpio_compiled_pin : pinA07.words = [1, 7, 1, -1, -1, -1] ∧
    (∃ r, getStr2int (padTo VALUE_MAX_LEN pinA07.text) = .ok (some r) ∧ r.type = .gpio ∧
      r.fmtValue.take 6 = pinA07.words) ∧
    ∃ s', Emitted (storeMainkey initTables (ascii "a")) s' (ascii "k") .gpio pinA07.words := by
  obtain ⟨hget, hemit⟩ := (gpio_compiled pinA07).1 (by decide) (by decide)
  refine ⟨by decide +kernel, hget, ?_⟩
  have hstep : (step ⟨ascii "k=port:PA07<1><default>\n" ++ [0, 0], 24,
      storeMainkey initTables (ascii "a")⟩).toOption.isSome = true := by decide +kernel
  obtain ⟨s', hs'⟩ := Option.isSome_iff_exists.mp hstep
  cases hr : step ⟨ascii "k=port:PA07<1><default>\n" ++ [0, 0], 24,
      storeMainkey initTables (ascii "a")⟩ with
  | error e =>
    rw [hr] at hs'
    cases hs'
  | ok s => exact ⟨s.tables, hemit _ s (ascii "k") (by decide +kernel) hr⟩

/-- `port:PA4294967296<1>`. -/
def pinWrapped : GpioText where
  port := .letter (ascii "port:P") 0x41 rfl (.inl rfl)
  digits := ascii "4294967296"
  attrs := [.number false (ascii "1") (by decide) (by decide +kernel)]
  digits_digit := by decide +kernel
  short := by decide +kernel

/-- `port:PA` with pin 7 written in 121 digits, and one attribute. -/
def pinLong : List UInt8 := ascii "port:PA" ++ List.replicate 120 0x30 ++ ascii "7<1>"

/-- A pin of 2^32 is stored as 0; and of a value of 131 bytes the first 127 are read, which hold no
attribute, so no word of it is stored. -/
theorem gpio_apart :
    (∃ r, getStr2int (padTo VALUE_MAX_LEN pinWrapped.text) = .ok (some r) ∧ r.type = .gpio ∧
      r.fmtValue.take 6 = [1, 0, 1, -1, -1, -1]) ∧ digitsVal pinWrapped.digits = 4294967296 ∧
    ∃ s', step ⟨ascii "k=" ++ pinLong ++ [chLf, 0, 0], pinLong.length + 3,
      storeMainkey initTables (ascii "a")⟩ = .ok s' ∧ s'.tables.valueData = [] := by
  refine ⟨?_, by decide +kernel, ?_⟩
  · have hget := getStr2int_gpio pinWrapped (by decide)
    rw [gpioFill_words pinWrapped (by decide) (by decide), Option.map_some] at hget
    exact ⟨_, hget, rfl, by decide +kernel⟩
  · have hlong : (step ⟨ascii "k=" ++ pinLong ++ [chLf, 0, 0], pinLong.length + 3,
        storeMainkey initTables (ascii "a")⟩).toOption.map (·.tables.valueData) = some [] := by
      decide +kernel
    cases hs : step ⟨ascii "k=" ++ pinLong ++ [chLf, 0, 0], pinLong.length + 3,
        storeMainkey initTables (ascii "a")⟩ with
    | error e =>
      rw [hs] at hlong
      cases hlong
    | ok s' =>
      rw [hs] at hlong
      exact ⟨s', rfl, Option.some.inj hlong⟩

end Lichee.Script

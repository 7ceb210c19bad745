import Lichee.Script.Text
import Lichee.Script.Inert

/- What a line yields, and on what bytes that depends. `__fill_mainkey` and `__get_key_value`
   get a pointer into the script, not the line `__getline` has found, so a section line
   without its `]` and a key line without its `=` go on to read the lines behind them.
   `produce` is what an iteration of the line loop gets from its line, and `lineLocal_iff` says
   from which lines it is the same in every script whose loop comes to them: those that close what
   they open. Where the loop does not come to a line, nothing is produced from it
   (`line_record_iff`). -/
namespace Lichee.Script
open Base

/-- What a line yields: a section name, or the key and the value of a record. -/
inductive Product where
  | nothing
  | rejected
  | mainkey (name : List UInt8)
  | subkey (key value : List UInt8)
  deriving DecidableEq, Repr

/-- What the readers get from a line that `__getline` has told. -/
def readLine (src : List UInt8) : Flag → Except Stop Product
  | .comment | .null => .ok .nothing
  | .mainkey => do
    match ← fillMainkey src with
    | none => .ok .rejected
    | some name => .ok (.mainkey name)
  | .subkey => do
    match ← getKeyValue src with
    | none => .ok .nothing
    | some (key, value) => .ok (.subkey key value)
  | .error => .ok .rejected

/-- What an iteration gets from its line, before it stores it. -/
def produce (s : State) : Except Stop Product := do
  let line ← getline s.src s.restLen
  readLine s.src line.flag

/-- What the tables take from it. -/
def Product.store (t : Tables) : Product → Except Stop Tables
  | .nothing => .ok t
  | .rejected => .error .format
  | .mainkey name => .ok (storeMainkey t name)
  | .subkey key value => storeSubkey t key value

/-- A line of a text, with its end. The last line of a text may be without one. -/
structure TextLine where
  content : List UInt8
  eol : List UInt8
  noEol : NoEol content
  ended : eol = [] ∨ eol = [chLf] ∨ eol = [chCr] ∨ eol = [chCr, chLf]
  ne : content ++ eol ≠ []

def TextLine.bytes (L : TextLine) : List UInt8 := L.content ++ L.eol

/-- The line at index `i` of a script. -/
def LineAt (b : ScriptBuf) (i : Nat) (L : TextLine) : Prop :=
  ∃ q, b.text.drop i = L.bytes ++ q ∧ (L.eol = [] → q = []) ∧
    (L.eol = [chCr] → q.head? ≠ some chLf)

/-- The loop comes to index `i` of the script and gets `p` from the line there. -/
def Produces (b : ScriptBuf) (i : Nat) (p : Product) : Prop :=
  ∃ s, Seen b s ∧ more s = true ∧ s.src = b.mem.drop i ∧ produce s = .ok p

/-- Wherever the line stands, and whatever the other bytes are, it yields the same. -/
def LineLocal (L : TextLine) : Prop :=
  ∀ b b' i i' p p', LineAt b i L → LineAt b' i' L → Produces b i p → Produces b' i' p' → p = p'

/-- The value of a key line, from its first byte that is no blank on. -/
def TextLine.valueBytes (L : TextLine) : List UInt8 :=
  (L.content.dropWhile (· != chEq)).tail.dropWhile isBlank

/-- A line that holds all that is read for it: a section line with its `]`, with more bytes
than a name can have or with a name that is refused at its first byte; a key line with its
`=`, and with its end or more bytes of the value than are read; a line of blanks with its end.
A line too long is refused, a comment or an empty line skipped. -/
def SelfContained (L : TextLine) : Prop :=
  LINE_MAX_LEN ≤ L.content.length ∨
  match lineFlag (L.bytes.headD 0) with
  | .mainkey =>
    chClose ∈ L.bytes ∨ ITEM_NAME_MAX_LEN ≤ L.bytes.length ∨ L.bytes.tail.head? = some 0
  | .subkey =>
    (chEq ∈ L.content ∧ (L.eol ≠ [] ∨ 127 ≤ L.valueBytes.length)) ∨
      (L.eol ≠ [] ∧ ∀ x ∈ L.content, isBlank x = true)
  | .comment | .null | .error => True

/-- An iteration stores what it gets from its line, and nothing else. -/
theorem step_produce {s s' : State} (h : step s = .ok s') :
    ∃ p, produce s = .ok p ∧ p.store s.tables = .ok s'.tables := by
  obtain ⟨line, hl, hs⟩ := step_inv h
  unfold produce
  rw [hl, ok_bind]
  cases hs with
  | inert hf =>
    refine ⟨.nothing, ?_, rfl⟩
    rcases hf with hf | hf <;> rw [hf] <;> rfl
  | mainkey hf hroom hname =>
    refine ⟨.mainkey _, ?_, rfl⟩
    rw [hf, readLine, hname, ok_bind]
  | blank hf hkv =>
    refine ⟨.nothing, ?_, rfl⟩
    rw [hf, readLine, hkv, ok_bind]
  | subkey hf hkv hstore =>
    refine ⟨.subkey _ _, ?_, hstore⟩
    rw [hf, readLine, hkv, ok_bind]

/-! ## What the readers take -/

/-- The name of a section line, from the bytes behind its `[`. -/
def nameOf (t : List UInt8) : List UInt8 := (t.takeWhile (· != chClose)).take 31

theorem takeName_eq {src name : List UInt8} {i : Nat} (h : takeName src i = .ok name)
    (hi : i ≤ 31) : name = (src.takeWhile (· != chClose)).take (31 - i) := by
  induction src generalizing i name with
  | nil => cases h
  | cons ch src ih =>
    rw [takeName] at h
    by_cases hch : ch = chClose
    · rw [if_pos hch] at h
      cases h
      rw [List.takeWhile_cons_of_neg (by simp [hch]), List.take_nil]
    · rw [if_neg hch] at h
      rw [List.takeWhile_cons_of_pos (by simpa using hch)]
      by_cases hlast : i + 1 ≥ ITEM_NAME_MAX_LEN
      · rw [if_pos hlast] at h
        cases h
        unfold ITEM_NAME_MAX_LEN at hlast
        rw [show 31 - i = 0 by omega, List.take_zero]
      · rw [if_neg hlast] at h
        obtain ⟨n, hn, h⟩ := bind_eq_ok.mp h
        cases h
        unfold ITEM_NAME_MAX_LEN at hlast
        rw [show 31 - i = 31 - (i + 1) + 1 by omega, List.take_succ_cons, ← ih hn (by omega)]

/-- A `]`, or bytes enough for a name, fix the name. -/
theorem nameOf_append {t : List UInt8} (h : chClose ∈ t ∨ 31 ≤ t.length) (Z : List UInt8) :
    nameOf (t ++ Z) = nameOf t := by
  unfold nameOf
  rw [List.takeWhile_append]
  by_cases hall : (t.takeWhile (· != chClose)).length = t.length
  · have ht : t.takeWhile (· != chClose) = t :=
      (List.takeWhile_prefix _).eq_of_length hall
    have hno : chClose ∉ t := by
      intro hmem
      rw [← ht] at hmem
      exact absurd (List.mem_takeWhile_imp hmem) (by decide)
    rw [if_pos hall, ht, List.take_append_of_le_length (h.resolve_left hno)]
  · rw [if_neg hall]

/-- The blanks at the front of a line are skipped. -/
theorem checkLine_dropWhile (a w : List UInt8) :
    checkLine (a ++ w) = checkLine (a.dropWhile isBlank ++ w) := by
  induction a with
  | nil => rfl
  | cons x a ih =>
    by_cases hx : isBlank x = true
    · rw [List.dropWhile_cons_of_pos hx, List.cons_append, checkLine, if_pos hx, ih]
    · rw [List.dropWhile_cons_of_neg hx]

/-- A byte that is neither a blank nor the end of the line is where the line begins. -/
theorem checkLine_begin {a w : List UInt8} {x : UInt8} (ha : (a ++ w).head? = some x)
    (hb : isBlank x = false) (he : isEol x = false) : checkLine (a ++ w) = .ok (some (a ++ w)) := by
  obtain ⟨l, hl⟩ := List.head?_eq_some_iff.mp ha
  rw [hl]
  exact checkLine_skip (b := []) (by simp) hb he

theorem head_dropWhile_blank {a : List UInt8} {x : UInt8}
    (h : (a.dropWhile isBlank).head? = some x) : isBlank x = false := by
  obtain ⟨l, hl⟩ := List.head?_eq_some_iff.mp h
  have := List.head_dropWhile_not isBlank (l := a) (by rw [hl]; simp)
  simpa [hl] using this

/-- The value behind a `=`. -/
def valueOf (w : List UInt8) : Except Stop (List UInt8) := do
  match ← checkLine w with
  | none => .ok []
  | some src =>
    let value ← takeValue src 0
    .ok (trim value)

/-- `__get_key_value` on a text up to its `=`, and the value behind it. -/
theorem getKeyValue_eq {a : List UInt8} (ha : chEq ∉ a)
    (hx : ∀ x, (a.dropWhile isBlank).head? = some x → isEol x = false) (w : List UInt8) :
    getKeyValue (a ++ chEq :: w) =
      valueOf w >>= fun v => .ok (some (trim ((a.dropWhile isBlank).take 31), v)) := by
  have hkey : chEq ∉ a.dropWhile isBlank := fun h => ha ((List.dropWhile_sublist _).subset h)
  have hdrop : chEq ∉ (a.dropWhile isBlank).drop 31 := fun h => hkey (List.mem_of_mem_drop h)
  have hcheck : checkLine (a ++ chEq :: w) = .ok (some (a.dropWhile isBlank ++ chEq :: w)) := by
    rw [checkLine_dropWhile]
    cases hd : (a.dropWhile isBlank).head? with
    | none =>
      rw [List.head?_eq_none_iff.mp hd]
      exact checkLine_begin (a := []) rfl (by decide) (by decide)
    | some x =>
      exact checkLine_begin (by rw [List.head?_append, hd]; rfl) (head_dropWhile_blank hd)
        (hx x hd)
  unfold getKeyValue valueOf
  rw [hcheck, ok_bind]
  dsimp only
  -- the key is cut at 31 bytes, and the rest of it passed over
  rw [takeKey_take hkey (Nat.zero_le _), ok_bind]
  dsimp only
  rw [skipToEq_skip hdrop, ok_bind]
  cases hw : checkLine w with
  | error e => rfl
  | ok r =>
    cases r with
    | none => rfl
    | some src =>
      rw [ok_bind, ok_bind]
      dsimp only
      cases takeValue src 0 with
      | error e => rfl
      | ok v => rfl

/-- The value of a line with its end. -/
theorem valueOf_eol {v : List UInt8} {e : UInt8} (hv : NoEol v) (he : isEol e = true)
    (y : List UInt8) :
    valueOf (v ++ e :: y) = .ok (trim ((v.dropWhile isBlank).take 127)) := by
  unfold valueOf
  rw [checkLine_dropWhile]
  have hv' : NoEol (v.dropWhile isBlank) := fun x hx => hv x ((List.dropWhile_sublist _).subset hx)
  cases hd : (v.dropWhile isBlank).head? with
  | none =>
    have hb : ¬ isBlank e = true := by
      intro hb
      rw [not_eol_of_blank hb] at he
      cases he
    rw [List.head?_eq_none_iff.mp hd, List.nil_append, checkLine, if_neg hb, if_pos he]
    rfl
  | some x =>
    have hx : isEol x = false := hv' x (List.mem_of_head? hd)
    rw [checkLine_begin (by rw [List.head?_append, hd]; rfl) (head_dropWhile_blank hd) hx, ok_bind]
    dsimp only
    rw [takeValue_take hv' he (Nat.zero_le _), ok_bind]

/-- Of a value with more bytes than are stored the rest is not read. -/
theorem takeValue_full {a : List UInt8} (ha : NoEol a) {idx : Nat} (hi : idx ≤ 126)
    (hlen : 127 ≤ idx + a.length) : ∃ v, takeValue a idx = .ok v := by
  induction a generalizing idx with
  | nil => simp at hlen; omega
  | cons c a ih =>
    obtain ⟨hc, ha'⟩ := noEol_cons.mp ha
    rw [takeValue, if_neg (by simp [hc])]
    by_cases hlast : idx + 1 ≥ 127
    · exact ⟨_, if_pos hlast⟩
    · rw [List.length_cons] at hlen
      obtain ⟨v, hv⟩ := ih ha' (show idx + 1 ≤ 126 by omega) (by omega)
      exact ⟨c :: v, by rw [if_neg hlast, hv, ok_bind]⟩

theorem valueOf_full {v : List UInt8} (hv : NoEol v)
    (hlen : 127 ≤ (v.dropWhile isBlank).length) : ∃ r, valueOf v = .ok r := by
  have hv' : NoEol (v.dropWhile isBlank) := fun x hx => hv x ((List.dropWhile_sublist _).subset hx)
  obtain ⟨value, hvalue⟩ := takeValue_full hv' (Nat.zero_le _) (by omega)
  obtain ⟨x, hd⟩ : ∃ x, (v.dropWhile isBlank).head? = some x := by
    rw [← Option.isSome_iff_exists, List.isSome_head?]
    intro h
    rw [h] at hlen
    simp at hlen
  refine ⟨trim value, ?_⟩
  unfold valueOf
  rw [← List.append_nil v, checkLine_dropWhile, checkLine_begin (by rw [List.append_nil]; exact hd)
    (head_dropWhile_blank hd) (hv' x (List.mem_of_head? hd)), ok_bind]
  dsimp only
  rw [List.append_nil, hvalue, ok_bind]

/-! ## A line by itself -/

/-- A name that starts with NUL is refused. -/
def Product.ofName (name : List UInt8) : Product :=
  if name.headD 0 = 0 then .rejected else .mainkey name

/-- What a line yields, from its own bytes. -/
def TextLine.product (L : TextLine) : Product :=
  if LINE_MAX_LEN ≤ L.content.length then .rejected
  else match lineFlag (L.bytes.headD 0) with
    | .mainkey => .ofName (nameOf L.bytes.tail)
    | .subkey =>
      match getKeyValue L.bytes with
      | .ok (some (key, value)) => .subkey key value
      | _ => .nothing
    | .comment | .null | .error => .nothing

theorem ofName_append {t : List UInt8}
    (h : chClose ∈ t ∨ 31 ≤ t.length ∨ t.head? = some 0) (Z : List UInt8) :
    Product.ofName (nameOf (t ++ Z)) = .ofName (nameOf t) := by
  rcases h with h | h | h
  · rw [nameOf_append (.inl h)]
  · rw [nameOf_append (.inr h)]
  · obtain ⟨t', rfl⟩ := List.head?_eq_some_iff.mp h
    have hzero : ∀ l, Product.ofName (nameOf (0 :: l)) = .rejected := fun l => by
      rw [nameOf, List.takeWhile_cons_of_pos (by decide), List.take_succ_cons]
      rfl
    rw [List.cons_append, hzero, hzero]

theorem lineFlag_mainkey {ch : UInt8} (h : lineFlag ch = .mainkey) : ch = chOpen := by
  unfold lineFlag at h
  split at h
  · cases h
  · split at h
    · cases h
    · split at h
      · assumption
      · cases h

/-- What a section line yields. -/
theorem readLine_mainkey {buf : List UInt8} {p : Product} (h : readLine buf .mainkey = .ok p) :
    p = .ofName (nameOf buf.tail) := by
  unfold readLine fillMainkey at h
  obtain ⟨r, hr, h⟩ := bind_eq_ok.mp h
  obtain ⟨name, hname, hr⟩ := bind_eq_ok.mp hr
  rw [List.drop_one] at hname
  have hn : name = nameOf buf.tail := takeName_eq hname (Nat.zero_le _)
  subst hn
  unfold Product.ofName
  split at hr
  · next h0 =>
    cases hr
    rw [if_pos h0]
    exact (Except.ok.inj h).symm
  · next h0 =>
    cases hr
    rw [if_neg h0]
    exact (Except.ok.inj h).symm

theorem TextLine.eol_head (L : TextLine) {e : UInt8} {y : List UInt8} (h : L.eol = e :: y) :
    isEol e = true := by
  have hended := L.ended
  rw [h] at hended
  rcases hended with h | h | h | h <;> cases h <;> rfl

theorem valueBytes_eq {L : TextLine} {a v : List UInt8} (hc : L.content = a ++ chEq :: v)
    (ha : chEq ∉ a) : L.valueBytes = v.dropWhile isBlank := by
  have ha' : ∀ x ∈ a, (x != chEq) = true := fun x hx => bne_iff_ne.mpr fun h => ha (h ▸ hx)
  rw [TextLine.valueBytes, hc, List.dropWhile_append_of_pos ha',
    List.dropWhile_cons_of_neg (by decide), List.tail_cons]

/-- The `=` and what the value needs are in the line: so is all that is read for it. -/
theorem keyLine_reads {L : TextLine} (heq : chEq ∈ L.content)
    (hv : L.eol ≠ [] ∨ 127 ≤ L.valueBytes.length) :
    ∃ kv, getKeyValue L.bytes = .ok (some kv) := by
  obtain ⟨a, v, hc, ha⟩ := List.eq_append_cons_of_mem heq
  have hno := L.noEol
  rw [hc, noEol_append, noEol_cons] at hno
  obtain ⟨hnoa, -, hnov⟩ := hno
  have hhead : ∀ x, (a.dropWhile isBlank).head? = some x → isEol x = false := fun x hx =>
    hnoa x ((List.dropWhile_sublist _).subset (List.mem_of_head? hx))
  have hbytes : L.bytes = a ++ chEq :: (v ++ L.eol) := by
    rw [TextLine.bytes, hc, List.append_assoc, List.cons_append]
  obtain ⟨value, hvalue⟩ : ∃ value, valueOf (v ++ L.eol) = .ok value := by
    cases heol : L.eol with
    | nil =>
      rw [List.append_nil]
      apply valueOf_full hnov
      rw [← valueBytes_eq hc ha]
      exact hv.resolve_left (not_not_intro heol)
    | cons e y => exact ⟨_, valueOf_eol hnov (L.eol_head heol) y⟩
  rw [hbytes, getKeyValue_eq ha hhead, hvalue, ok_bind]
  exact ⟨_, rfl⟩

/-- A line of blanks with its end yields nothing. -/
theorem blankLine_reads {L : TextLine} (heol : L.eol ≠ [])
    (hb : ∀ x ∈ L.content, isBlank x = true) : getKeyValue L.bytes = .ok none := by
  obtain ⟨e, y, hey⟩ := List.exists_cons_of_ne_nil heol
  exact getKeyValue_eq_none.mpr
    ⟨L.content, e, y, by rw [TextLine.bytes, hey], hb, L.eol_head hey⟩

/-! ## Where the loop stands -/

/-- A text whose first line has 512 bytes or more. -/
def LongLine (t : List UInt8) : Prop := ∃ c z, t = c ++ z ∧ NoEol c ∧ LINE_MAX_LEN ≤ c.length

/-- The loop is at index `i`. Its counter is what is left of the text, unless it stays on a
line of blanks. -/
structure StandsAt (b : ScriptBuf) (s : State) (i : Nat) : Prop where
  src : s.src = b.mem.drop i
  counter : s.restLen = (b.text.length : Int) - i ∨
    (lineFlag (s.src.headD 0) = .subkey ∧ getKeyValue s.src = .ok none ∧
      ¬ LongLine (b.text.drop i))

theorem got_flag {len : Int} {buf : List UInt8} {line : Line} (h : Got len buf line) :
    line.flag = lineFlag (buf.headD 0) ∨ line.flag = .error := by
  cases h with
  | null he => exact .inl (lineFlag_null.mpr he).symm
  | line => exact .inl rfl
  | tooLong => exact .inr rfl

/-- Such a line is refused while the counter covers it. -/
theorem longLine_refused {t X : List UInt8} {len : Int} {line : Line} (ht : LongLine t)
    (hX : X ≠ []) (hlen : (t.length : Int) ≤ len) (h : getline (t ++ X) len = .ok line) :
    line.flag = .error := by
  obtain ⟨c, z, rfl, hc, hk⟩ := ht
  obtain ⟨ch, c', rfl⟩ := List.exists_cons_of_length_pos (l := c)
    (by unfold LINE_MAX_LEN at hk; omega)
  obtain ⟨hch, hc'⟩ := noEol_cons.mp hc
  have hpos := List.length_pos_of_ne_nil hX
  simp only [List.length_cons, List.length_append] at hk hlen
  obtain ⟨y, hy⟩ := got_long (M := z ++ X) hch hc' hk
    (by simp only [List.length_append]; omega) (show (LINE_MAX_LEN : Int) ≤ len by omega)
  rw [List.append_assoc, List.cons_append, getline_eq_ok.mpr hy] at h
  rw [← Except.ok.inj h]

theorem mem_drop {b : ScriptBuf} {i : Nat} (hi : i ≤ b.text.length) :
    b.mem.drop i = b.text.drop i ++ b.next :: b.rest := by
  rw [ScriptBuf.mem, List.drop_append_of_le_length hi]

/-- A line of blanks that is come to for the first time is not too long. -/
theorem standsAt_blank {b : ScriptBuf} {s : State} {i : Nat} {line : Line}
    (h : StandsAt b s i) (hl : getline s.src s.restLen = .ok line) (hf : line.flag = .subkey) :
    ¬ LongLine (b.text.drop i) := by
  intro hlong
  rcases h.counter with hrest | ⟨-, -, hshort⟩
  · obtain ⟨c, z, hc, -, hk⟩ := id hlong
    have hi : i ≤ b.text.length := by
      have := congrArg List.length hc
      rw [List.length_drop, List.length_append] at this
      unfold LINE_MAX_LEN at hk
      omega
    rw [h.src, mem_drop hi] at hl
    have herr := longLine_refused hlong (by simp) (by rw [hrest, List.length_drop]; omega) hl
    rw [hf] at herr
    cases herr
  · exact hshort hlong

theorem standsAt_step {b : ScriptBuf} {s s' : State} {i : Nat} (h : StandsAt b s i)
    (hstep : step s = .ok s') : ∃ j, StandsAt b s' j := by
  obtain ⟨line, hl, hs⟩ := step_inv hstep
  have hflag := got_flag (getline_eq_ok.mp hl)
  -- a line that is taken leaves the loop behind it, with the counter as right as before
  have hnext : ∀ t, (lineFlag (s.src.headD 0) = .subkey → getKeyValue s.src ≠ .ok none) →
      ∃ j, StandsAt b ⟨s.src.drop line.lineLen, s.restLen - line.lineLen, t⟩ j := by
    intro t hne
    rcases h.counter with hrest | ⟨hsub, hnone, -⟩
    · refine ⟨i + line.lineLen, ?_, .inl ?_⟩
      · rw [h.src, List.drop_drop]
      · simp only [hrest]
        push_cast
        omega
    · exact absurd hnone (hne hsub)
  have hhead : ∀ {f : Flag}, line.flag = f → f ≠ .error → lineFlag (s.src.headD 0) = f := by
    intro f hf hne
    rcases hflag with h | h
    · rw [← h, hf]
    · exact absurd (hf.symm.trans h) hne
  cases hs with
  | inert hf =>
    apply hnext
    intro hsub
    rcases hf with hf | hf <;> rw [hhead hf (by decide)] at hsub <;> cases hsub
  | mainkey hf =>
    apply hnext
    intro hsub
    rw [hhead hf (by decide)] at hsub
    cases hsub
  | blank hf hkv => exact ⟨i, h.src, .inr ⟨hhead hf (by decide), hkv, standsAt_blank h hl hf⟩⟩
  | subkey hf hkv =>
    apply hnext
    intro _ hnone
    rw [hkv] at hnone
    cases hnone

theorem seen_standsAt {b : ScriptBuf} {s : State} (h : Seen b s) : ∃ i, StandsAt b s i :=
  h.invariant (I := fun s => ∃ i, StandsAt b s i)
    ⟨0, by rw [List.drop_zero]; rfl, .inl (by simp [initState])⟩
    fun _ _ ⟨_, hi⟩ _ hstep => standsAt_step hi hstep

section Line
variable {b : ScriptBuf} {i : Nat} {L : TextLine}

theorem TextLine.bytes_ne (L : TextLine) : L.bytes ≠ [] := L.ne

theorem lineAt_lt (h : LineAt b i L) : i < b.text.length := by
  obtain ⟨q, hq, -⟩ := h
  have hlen := congrArg List.length hq
  have hpos := List.length_pos_of_ne_nil L.bytes_ne
  rw [List.length_drop, List.length_append] at hlen
  omega

/-- The memory from the line on. -/
theorem lineAt_mem (h : LineAt b i L) :
    ∃ Z, Z ≠ [] ∧ b.mem.drop i = L.bytes ++ Z ∧ (L.eol = [] → b.text.drop i = L.content) := by
  have hlt := lineAt_lt h
  obtain ⟨q, hq, hlast, -⟩ := h
  refine ⟨q ++ b.next :: b.rest, by simp, ?_, ?_⟩
  · rw [mem_drop (Nat.le_of_lt hlt), hq, List.append_assoc]
  · intro heol
    rw [hq, hlast heol, List.append_nil, TextLine.bytes, heol, List.append_nil]

theorem bytes_head (Z : List UInt8) : (L.bytes ++ Z).headD 0 = L.bytes.headD 0 := by
  obtain ⟨c, l, h⟩ := List.exists_cons_of_ne_nil L.bytes_ne
  rw [h]
  rfl

theorem seen_at {s : State} (h : LineAt b i L) (hs : Seen b s) (hsrc : s.src = b.mem.drop i) :
    StandsAt b s i := by
  obtain ⟨j, hj⟩ := seen_standsAt hs
  have hlt := lineAt_lt h
  have hlen := congrArg List.length (hj.src.symm.trans hsrc)
  simp only [List.length_drop, ScriptBuf.mem, List.length_append, List.length_cons] at hlen
  obtain rfl : j = i := by omega
  exact hj

/-- A key line of which all is read that is needed is no line of blanks. -/
theorem selfContained_not_stuck {Z : List UInt8} (h : SelfContained L)
    (hshort : L.content.length < LINE_MAX_LEN) (heol : L.eol = [])
    (hsub : lineFlag (L.bytes.headD 0) = .subkey) : getKeyValue (L.bytes ++ Z) ≠ .ok none := by
  rcases h with hlong | h
  · omega
  rw [hsub] at h
  rcases h with ⟨heq, hv⟩ | ⟨hne, -⟩
  · obtain ⟨kv, hkv⟩ := keyLine_reads heq hv
    rw [getKeyValue_append hkv Z]
    nofun
  · exact absurd heol hne

/-- `__getline` tells the line by its first byte. -/
theorem selfContained_flag {s : State} {line : Line} (h : SelfContained L)
    (hshort : L.content.length < LINE_MAX_LEN) (hat : LineAt b i L) (hst : StandsAt b s i)
    (hl : getline s.src s.restLen = .ok line) : line.flag = lineFlag (L.bytes.headD 0) := by
  obtain ⟨Z, hZ, hmem, hlast⟩ := lineAt_mem hat
  have hsrc : s.src = L.bytes ++ Z := hst.src.trans hmem
  have hgot := getline_eq_ok.mp hl
  have hhead : s.src.headD 0 = L.bytes.headD 0 := by rw [hsrc, bytes_head]
  rcases got_flag hgot with hf | hf
  · rw [hf, hhead]
  exfalso
  generalize hbuf : s.src = buf at hgot
  cases hgot with
  | null => cases hf
  | line => exact absurd hf (lineFlag_ne_error _)
  | @tooLong ch d c y hch hc hk hlen =>
    cases heol : L.eol with
    | nil =>
      rcases hst.counter with hrest | ⟨hsub, hnone, -⟩
      · have hcount := congrArg List.length (hlast heol)
        have hlt := lineAt_lt hat
        rw [List.length_drop] at hcount
        omega
      · rw [hhead] at hsub
        rw [hsrc] at hnone
        exact selfContained_not_stuck h hshort heol hsub hnone
    | cons e eol =>
      -- the line end is among the bytes that hold none
      have hsplit : L.content ++ [e] ++ (eol ++ Z) = (ch :: c) ++ d :: y := by
        rw [hsrc, TextLine.bytes, heol] at hbuf
        simpa using hbuf
      have hpre : L.content ++ [e] <+: ch :: c := by
        apply List.prefix_of_prefix_length_le ⟨_, hsplit⟩ (List.prefix_append _ _)
        simp only [List.length_append, List.length_cons, List.length_nil]
        omega
      have he := noEol_cons.mpr ⟨hch, hc⟩ e (hpre.subset (by simp))
      rw [L.eol_head heol] at he
      cases he

/-- A line that is too long is refused by `__getline`. -/
theorem longLine_flag {s : State} {line : Line} (hlong : LINE_MAX_LEN ≤ L.content.length)
    (hat : LineAt b i L) (hst : StandsAt b s i) (hl : getline s.src s.restLen = .ok line) :
    line.flag = .error := by
  have hll : LongLine (b.text.drop i) := by
    obtain ⟨q, hq, -⟩ := hat
    exact ⟨L.content, L.eol ++ q, by rw [hq, TextLine.bytes, List.append_assoc], L.noEol, hlong⟩
  rcases hst.counter with hrest | ⟨-, -, hno⟩
  · have hlt := lineAt_lt hat
    rw [hst.src, mem_drop (Nat.le_of_lt hlt)] at hl
    exact longLine_refused hll (by simp) (by rw [hrest, List.length_drop]; omega) hl
  · exact absurd hll hno

/-- A self-contained line yields what its own bytes say. -/
theorem selfContained_produces {p : Product} (h : SelfContained L) (hat : LineAt b i L)
    (hp : Produces b i p) : p = L.product := by
  obtain ⟨s, hs, -, hsrc, hp⟩ := hp
  have hst := seen_at hat hs hsrc
  obtain ⟨Z, hZ, hmem, -⟩ := lineAt_mem hat
  unfold produce at hp
  obtain ⟨line, hl, hp⟩ := bind_eq_ok.mp hp
  unfold TextLine.product
  -- a line too long is refused before anything is read of it
  by_cases hlong : LINE_MAX_LEN ≤ L.content.length
  · rw [if_pos hlong]
    rw [longLine_flag hlong hat hst hl] at hp
    exact (Except.ok.inj hp).symm
  rw [if_neg hlong]
  have hflag := selfContained_flag h (not_le.mp hlong) hat hst hl
  rw [hsrc, hmem, hflag] at hp
  have hself := h.resolve_left hlong
  cases hf : lineFlag (L.bytes.headD 0) with
  | comment =>
    rw [hf] at hp
    exact (Except.ok.inj hp).symm
  | null =>
    rw [hf] at hp
    exact (Except.ok.inj hp).symm
  | error => exact absurd hf (lineFlag_ne_error _)
  | mainkey =>
    rw [hf] at hp hself
    obtain ⟨c, l, hcl⟩ := List.exists_cons_of_ne_nil L.bytes_ne
    have hopen : c = chOpen := by
      rw [hcl] at hf
      exact lineFlag_mainkey hf
    rw [readLine_mainkey hp, hcl, List.cons_append, List.tail_cons, List.tail_cons]
    apply ofName_append
    rw [hcl, hopen] at hself
    rcases hself with hclose | hlen | hnul
    · exact .inl ((List.mem_cons.mp hclose).resolve_left (by decide))
    · exact .inr (.inl (by unfold ITEM_NAME_MAX_LEN at hlen; simpa using hlen))
    · exact .inr (.inr hnul)
  | subkey =>
    rw [hf] at hp hself
    rw [readLine] at hp
    rcases hself with ⟨heq, hv⟩ | ⟨heol, hb⟩
    · obtain ⟨⟨key, value⟩, hkv⟩ := keyLine_reads heq hv
      rw [getKeyValue_append hkv Z, ok_bind] at hp
      simp only [hkv]
      exact (Except.ok.inj hp).symm
    · have hkv := blankLine_reads heol hb
      rw [getKeyValue_append hkv Z, ok_bind] at hp
      simp only [hkv]
      exact (Except.ok.inj hp).symm

end Line

/-! ## Two scripts around a line -/

/-- A script that starts with the line. What follows its end is the next line; behind a last
line without an end it is the memory behind the script. -/
def front (L : TextLine) (z y : UInt8) (W : List UInt8) : ScriptBuf :=
  if L.eol = [] then ⟨L.bytes, z, y :: W⟩ else ⟨L.bytes ++ z :: y :: W, 0, []⟩

section Front
variable {L : TextLine} {z y : UInt8} {W : List UInt8}

theorem front_lineAt (hz : L.eol = [chCr] → z ≠ chLf) : LineAt (front L z y W) 0 L := by
  unfold front LineAt
  rw [List.drop_zero]
  by_cases heol : L.eol = []
  · rw [if_pos heol]
    exact ⟨[], by rw [List.append_nil], fun _ => rfl, fun h => by rw [heol] at h; cases h⟩
  · rw [if_neg heol]
    refine ⟨z :: y :: W, rfl, fun h => absurd h heol, fun h hl => hz h (Option.some.inj hl)⟩

theorem front_mem : ∃ X, (front L z y W).mem = L.bytes ++ z :: y :: (W ++ X) := by
  unfold front ScriptBuf.mem
  by_cases heol : L.eol = []
  · rw [if_pos heol]
    exact ⟨[], by rw [List.append_nil]⟩
  · rw [if_neg heol]
    exact ⟨[0], by simp only [List.append_assoc, List.cons_append]⟩

/-- The loop starts at the line, and tells it by its first byte. -/
theorem front_getline (hne : L.content ≠ []) (hshort : L.content.length < LINE_MAX_LEN) :
    ∃ line, getline (initState (front L z y W)).src (initState (front L z y W)).restLen =
      .ok line ∧ line.flag = lineFlag (L.bytes.headD 0) := by
  obtain ⟨X, hmem⟩ := front_mem (L := L) (z := z) (y := y) (W := W)
  have hhead : lineFlag (L.content.headD 0) = lineFlag (L.bytes.headD 0) := by
    obtain ⟨c, l, hcl⟩ := List.exists_cons_of_ne_nil hne
    rw [TextLine.bytes, hcl]
    rfl
  rw [initState, hmem]
  cases heol : L.eol with
  | nil =>
    obtain ⟨ch, c, hcl⟩ := List.exists_cons_of_ne_nil hne
    obtain ⟨hch, hc⟩ := noEol_cons.mp (hcl ▸ L.noEol)
    have hbytes : L.bytes = ch :: c := by rw [TextLine.bytes, heol, List.append_nil, hcl]
    have hlen : (front L z y W).text.length = c.length + 1 := by
      rw [front, if_pos heol, hbytes, List.length_cons]
    rw [hcl] at hshort
    rw [hbytes, hlen]
    refine ⟨_, getline_eq_ok.mpr (.line hch hc hshort (.inr ⟨?_, .inr ?_⟩)), rfl⟩
    · exact Int.le_refl _
    · exact Int.le_refl _
  | cons e eol =>
    have hne' : L.eol ≠ [] := by rw [heol]; simp
    have hlen : (L.content.length : Int) < (front L z y W).text.length := by
      rw [front, if_neg hne', TextLine.bytes, heol]
      simp only [List.length_append, List.length_cons]
      omega
    obtain ⟨d, M, hd⟩ : ∃ d M, eol ++ z :: y :: (W ++ X) = d :: M :=
      List.exists_cons_of_ne_nil (by simp)
    have hsplit : L.bytes ++ z :: y :: (W ++ X) = L.content ++ e :: d :: M := by
      rw [TextLine.bytes, heol, List.append_assoc, List.cons_append, hd]
    rw [hsplit, ← hhead]
    exact ⟨_, getline_line hne L.noEol hshort (L.eol_head heol) hlen, rfl⟩

/-- What the loop gets from a line at the front of a script. -/
theorem front_produces {p : Product} (hne : L.content ≠ [])
    (hshort : L.content.length < LINE_MAX_LEN)
    (hp : ∀ X, readLine (L.bytes ++ z :: y :: (W ++ X)) (lineFlag (L.bytes.headD 0)) = .ok p) :
    Produces (front L z y W) 0 p := by
  obtain ⟨line, hl, hflag⟩ := front_getline (z := z) (y := y) (W := W) hne hshort
  obtain ⟨X, hmem⟩ := front_mem (L := L) (z := z) (y := y) (W := W)
  have hpos : 0 < (front L z y W).text.length := by
    have := List.length_pos_of_ne_nil L.bytes_ne
    unfold front
    split
    · exact this
    · rw [List.length_append]
      omega
  refine ⟨_, .refl, ?_, (List.drop_zero).symm, ?_⟩
  · simp only [more, initState, bne_iff_ne]
    omega
  · rw [produce, hl, ok_bind, hflag, initState, hmem]
    exact hp X

/-- Two continuations that make a difference: the line is not local. -/
theorem not_local_of_front {w v : UInt8} {V : List UInt8} {p q : Product}
    (hne : L.content ≠ []) (hshort : L.content.length < LINE_MAX_LEN)
    (hz : L.eol ≠ [] → z ≠ chLf) (hw : L.eol ≠ [] → w ≠ chLf)
    (hp : ∀ X, readLine (L.bytes ++ z :: y :: (W ++ X)) (lineFlag (L.bytes.headD 0)) = .ok p)
    (hq : ∀ X, readLine (L.bytes ++ w :: v :: (V ++ X)) (lineFlag (L.bytes.headD 0)) = .ok q)
    (hdiff : p ≠ q) : ¬ LineLocal L := by
  intro h
  apply hdiff
  apply h _ _ 0 0 p q (front_lineAt _) (front_lineAt _) (front_produces hne hshort hp)
    (front_produces hne hshort hq)
  · intro hcr
    exact hz (by rw [hcr]; simp)
  · intro hcr
    exact hw (by rw [hcr]; simp)

end Front

/-! ## Lines that are read on -/

theorem readLine_close {t : List UInt8} (ht : chClose ∉ t) (hlen : t.length ≤ 31)
    (w : List UInt8) : readLine (chOpen :: (t ++ chClose :: w)) .mainkey = .ok (.ofName t) := by
  rw [readLine, fillMainkey, List.drop_one, List.tail_cons, takeName_close ht (by omega), ok_bind]
  by_cases h0 : t.headD 0 = 0
  · rw [Product.ofName, if_pos h0, if_pos h0, ok_bind]
  · rw [Product.ofName, if_neg h0, if_neg h0, ok_bind]

/-- One more byte of a name makes another name. -/
theorem ofName_concat {t : List UInt8} (h : t.head? ≠ some 0) {x : UInt8} (hx : x ≠ 0) :
    Product.ofName t ≠ .ofName (t ++ [x]) := by
  cases t with
  | nil =>
    rw [List.nil_append, show Product.ofName [] = .rejected from rfl, Product.ofName,
      List.headD_cons, if_neg hx]
    nofun
  | cons c t =>
    have hc : ¬ c = 0 := fun h0 => h (by rw [h0]; rfl)
    rw [Product.ofName, Product.ofName, List.cons_append, List.headD_cons, List.headD_cons,
      if_neg hc, if_neg hc]
    intro heq
    injection heq with heq
    have := congrArg List.length heq
    simp at this

section Open
variable {L : TextLine}

/-- A section line that is not closed takes its name from what follows. -/
theorem open_section (hne : L.content ≠ []) (hshort : L.content.length < LINE_MAX_LEN)
    (hf : lineFlag (L.bytes.headD 0) = .mainkey)
    (hself : ¬ (chClose ∈ L.bytes ∨ ITEM_NAME_MAX_LEN ≤ L.bytes.length ∨
      L.bytes.tail.head? = some 0)) : ¬ LineLocal L := by
  obtain ⟨c, t, hct⟩ := List.exists_cons_of_ne_nil L.bytes_ne
  obtain rfl : c = chOpen := by
    rw [hct] at hf
    exact lineFlag_mainkey hf
  simp only [not_or, hct, List.tail_cons, List.length_cons, List.mem_cons] at hself
  obtain ⟨⟨-, hclose⟩, hlen, hhead⟩ := hself
  unfold ITEM_NAME_MAX_LEN at hlen
  have hclose' : chClose ∉ t ++ [ch0] := by
    rw [List.mem_append, not_or]
    exact ⟨hclose, by decide⟩
  apply not_local_of_front (z := chClose) (y := chLf) (W := []) (w := ch0)
    (v := chClose) (V := [])
    (p := .ofName t) (q := .ofName (t ++ [ch0])) hne hshort
  · exact fun _ => by decide
  · exact fun _ => by decide
  · intro X
    rw [hf, hct, List.cons_append]
    exact readLine_close hclose (by omega) _
  · intro X
    have hsplit : t ++ ch0 :: chClose :: ([] ++ X) = (t ++ [ch0]) ++ chClose :: X := by simp
    rw [hf, hct, List.cons_append, hsplit]
    exact readLine_close hclose' (by rw [List.length_append, List.length_singleton]; omega) _
  · exact ofName_concat hhead (by decide)

/-- A key line up to a `=` behind it, and the value there. -/
theorem readLine_key {a : List UInt8} (ha : chEq ∉ a)
    (hx : ∀ x, (a.dropWhile isBlank).head? = some x → isEol x = false) {w v : List UInt8}
    (hv : valueOf w = .ok v) : readLine (a ++ chEq :: w) .subkey =
      .ok (.subkey (trim ((a.dropWhile isBlank).take 31)) v) := by
  rw [readLine, getKeyValue_eq ha hx, hv, ok_bind, ok_bind]

/-- A key line without its `=` takes its key and its value from what follows. -/
theorem open_key (hne : L.content ≠ []) (hshort : L.content.length < LINE_MAX_LEN)
    (hf : lineFlag (L.bytes.headD 0) = .subkey) (heq : chEq ∉ L.content)
    (hblank : ¬ (L.eol ≠ [] ∧ ∀ x ∈ L.content, isBlank x = true)) : ¬ LineLocal L := by
  have ha : chEq ∉ L.bytes := by
    rw [TextLine.bytes, List.mem_append, not_or]
    refine ⟨heq, ?_⟩
    rcases L.ended with h | h | h | h <;> rw [h] <;> decide
  have hx : ∀ x, (L.bytes.dropWhile isBlank).head? = some x → isEol x = false := by
    intro x hx
    rw [TextLine.bytes, List.dropWhile_append] at hx
    by_cases hd : (L.content.dropWhile isBlank).isEmpty = true
    · rw [if_pos hd] at hx
      have hall : ∀ y ∈ L.content, isBlank y = true :=
        List.dropWhile_eq_nil_iff.mp (List.isEmpty_iff.mp hd)
      have heol : L.eol = [] := by_contra fun h => hblank ⟨h, hall⟩
      rw [heol] at hx
      cases hx
    · rw [if_neg hd, List.head?_append_of_ne_nil _ (by simpa using hd)] at hx
      exact L.noEol x ((List.dropWhile_sublist _).subset (List.mem_of_head? hx))
  have hvalue : ∀ {d : UInt8} (X : List UInt8), isEol d = false → isBlank d = false →
      valueOf (d :: ([chLf] ++ X)) = .ok [d] := by
    intro d X hd hb
    have h := valueOf_eol (v := [d]) (e := chLf) (noEol_cons.mpr ⟨hd, noEol_nil⟩) rfl X
    rw [List.dropWhile_cons_of_neg (by rw [hb]; decide)] at h
    exact h
  -- two texts behind the line, whose values are "0" and "-"
  apply not_local_of_front (z := chEq) (y := ch0) (W := [chLf]) (w := chEq) (v := chMinus)
    (V := [chLf]) hne hshort
  · exact fun _ => by decide
  · exact fun _ => by decide
  · intro X
    rw [hf]
    exact readLine_key ha hx (hvalue X rfl rfl)
  · intro X
    rw [hf]
    exact readLine_key ha hx (hvalue X rfl rfl)
  · intro h
    injection h with _ h
    cases h

/-- The value of a last line without an end goes on behind the script. -/
theorem open_value (hne : L.content ≠ []) (hshort : L.content.length < LINE_MAX_LEN)
    (hf : lineFlag (L.bytes.headD 0) = .subkey) (heq : chEq ∈ L.content) (heol : L.eol = [])
    (hv : L.valueBytes.length < 127) : ¬ LineLocal L := by
  obtain ⟨a, v, hc, ha⟩ := List.eq_append_cons_of_mem heq
  have hno := L.noEol
  rw [hc, noEol_append, noEol_cons] at hno
  obtain ⟨hnoa, -, hnov⟩ := hno
  have hx : ∀ x, (a.dropWhile isBlank).head? = some x → isEol x = false := fun x hx =>
    hnoa x ((List.dropWhile_sublist _).subset (List.mem_of_head? hx))
  rw [valueBytes_eq hc ha] at hv
  have hnov' : NoEol (v ++ [ch0]) := noEol_append.mpr ⟨hnov, noEol_cons.mpr ⟨rfl, noEol_nil⟩⟩
  have hdrop : (v ++ [ch0]).dropWhile isBlank = v.dropWhile isBlank ++ [ch0] := by
    rw [List.dropWhile_append]
    split
    · next h =>
      rw [List.isEmpty_iff.mp h]
      rfl
    · rfl
  have hlong : trim (((v ++ [ch0]).dropWhile isBlank).take 127) = v.dropWhile isBlank ++ [ch0] := by
    have htrim := trim_take (a := v.dropWhile isBlank ++ [ch0]) (b := []) (n := 127)
      (fun c hc => by
        rw [List.getLast?_concat, Option.some.injEq] at hc
        rw [← hc]
        decide)
      (by simp) (by simp) (by rw [List.length_append, List.length_singleton]; omega)
    rw [List.append_nil] at htrim
    rw [hdrop, htrim]
  have hbytes : ∀ w, L.bytes ++ w = a ++ chEq :: (v ++ w) := by
    intro w
    rw [TextLine.bytes, heol, List.append_nil, hc, List.append_assoc, List.cons_append]
  -- in one text the value ends with the line, in the other a digit follows
  apply not_local_of_front (z := chLf) (y := chLf) (W := []) (w := ch0) (v := chLf) (V := [])
    (p := .subkey (trim ((a.dropWhile isBlank).take 31)) (trim ((v.dropWhile isBlank).take 127)))
    (q := .subkey (trim ((a.dropWhile isBlank).take 31)) (v.dropWhile isBlank ++ [ch0]))
    hne hshort
  · exact fun h => absurd heol h
  · exact fun h => absurd heol h
  · intro X
    rw [hf, hbytes]
    exact readLine_key ha hx (valueOf_eol hnov rfl _)
  · intro X
    have hsplit : v ++ ch0 :: chLf :: ([] ++ X) = (v ++ [ch0]) ++ chLf :: X := by simp
    rw [hf, hbytes, hsplit]
    apply readLine_key ha hx
    rw [valueOf_eol hnov' rfl, hlong]
  · intro h
    injection h with _ h
    have hlen := congrArg List.length h
    have htrim := trim_length_le ((v.dropWhile isBlank).take 127)
    rw [List.length_append, List.length_singleton] at hlen
    rw [List.length_take] at htrim
    omega

/-- Only an empty line has no content. -/
theorem content_ne (h : lineFlag (L.bytes.headD 0) ≠ .null) : L.content ≠ [] := by
  intro hc
  have hne := L.bytes_ne
  apply h
  rw [lineFlag_null]
  rw [TextLine.bytes, hc, List.nil_append] at hne ⊢
  obtain ⟨e, y, hey⟩ := List.exists_cons_of_ne_nil hne
  rw [hey]
  exact L.eol_head hey

end Open

/-- **Which lines are local**: those that hold all that is read for them. -/
theorem lineLocal_iff (L : TextLine) : LineLocal L ↔ SelfContained L := by
  refine ⟨?_, ?_⟩
  · intro h
    by_contra hself
    unfold SelfContained at hself
    obtain ⟨hlong, hself⟩ := not_or.mp hself
    have hshort := not_le.mp hlong
    cases hf : lineFlag (L.bytes.headD 0) with
    | comment => exact hself (by rw [hf]; trivial)
    | null => exact hself (by rw [hf]; trivial)
    | error => exact absurd hf (lineFlag_ne_error _)
    | mainkey =>
      rw [hf] at hself
      exact open_section (content_ne (by rw [hf]; decide)) hshort hf hself h
    | subkey =>
      rw [hf] at hself
      have hne := content_ne (L := L) (by rw [hf]; decide)
      obtain ⟨hvalue, hblank⟩ := not_or.mp hself
      by_cases heq : chEq ∈ L.content
      · have hv := fun hv => hvalue ⟨heq, hv⟩
        obtain ⟨heol, hlen⟩ := not_or.mp hv
        exact open_value hne hshort hf heq (not_not.mp heol) (not_le.mp hlen) h
      · exact open_key hne hshort hf heq hblank h
  · intro h b b' i i' p p' hat hat' hp hp'
    rw [selfContained_produces h hat hp, selfContained_produces h hat' hp']

/-! ## What a line yields -/

/-- The loop comes to index `i` of the script and reads the line there. -/
def ComesTo (b : ScriptBuf) (i : Nat) : Prop := ∃ p, Produces b i p

/-- What the compiler produces from the line at index `i`: nothing, if the loop does not come to
it. -/
def Yields (b : ScriptBuf) (i : Nat) (p : Product) : Prop :=
  Produces b i p ∨ p = .nothing ∧ ¬ ComesTo b i

/-- A line that holds all that is read for it yields the same in two scripts if the loop comes to it
in both, or in neither; otherwise only if it yields nothing. -/
theorem selfContained_yields {L : TextLine} (h : SelfContained L) {b b' : ScriptBuf} {i i' : Nat}
    {p p' : Product} (hat : LineAt b i L) (hat' : LineAt b' i' L) (hp : Yields b i p)
    (hp' : Yields b' i' p') :
    p = p' ↔ (ComesTo b i ↔ ComesTo b' i') ∨ L.product = .nothing := by
  rcases hp with hp | ⟨rfl, hno⟩ <;> rcases hp' with hp' | ⟨rfl, hno'⟩
  · have hsame : p = p' := by
      rw [selfContained_produces h hat hp, selfContained_produces h hat' hp']
    exact iff_of_true hsame (.inl (iff_of_true ⟨p, hp⟩ ⟨p', hp'⟩))
  · have hapart : ¬ (ComesTo b i ↔ ComesTo b' i') := fun hiff => hno' (hiff.mp ⟨p, hp⟩)
    rw [selfContained_produces h hat hp, or_iff_right hapart]
  · have hapart : ¬ (ComesTo b i ↔ ComesTo b' i') := fun hiff => hno (hiff.mpr ⟨p', hp'⟩)
    rw [selfContained_produces h hat' hp', or_iff_right hapart]
    exact eq_comm
  · exact iff_of_true rfl (.inl (iff_of_false hno hno'))

/-- In a script that compiles, the loop comes to a line behind lines that read nothing behind
themselves and are not blank. -/
theorem before_comesTo {pre text rest : List UInt8} {next : UInt8} {img : List UInt8}
    (hpre : Before pre) (hne : text ≠ []) (hlf : text.head? ≠ some chLf)
    (h : Compiles ⟨pre ++ text, next, rest⟩ img) :
    ComesTo ⟨pre ++ text, next, rest⟩ pre.length := by
  have hinit : initState ⟨pre ++ text, next, rest⟩ =
      ⟨pre ++ (text ++ next :: rest), (pre.length + text.length : Nat), initTables⟩ := by
    simp [initState, ScriptBuf.mem]
  have hpos : 0 < text.length := List.length_pos_of_ne_nil hne
  rw [compiles_iff, hinit] at h
  obtain ⟨t', hreach, hout⟩ := before_reach (X := text ++ next :: rest) (by simp)
    (by rwa [List.head?_append_of_ne_nil _ hne]) _ (Nat.le_refl _) hpre h
  have hmore : ((text.length : Nat) : Int) ≠ 0 := by omega
  cases hstep : step ⟨text ++ next :: rest, text.length, t'⟩ with
  | error e =>
    have hbad := (outcome_error hmore hstep).mp hout
    cases hbad
  | ok s' =>
    obtain ⟨p, hp, -⟩ := step_produce hstep
    have hseen : Seen ⟨pre ++ text, next, rest⟩ ⟨text ++ next :: rest, text.length, t'⟩ := by
      rw [Seen, hinit]
      exact hreach
    refine ⟨p, _, hseen, by simpa [more] using hmore, ?_, hp⟩
    simp [ScriptBuf.mem]

/-- **Which lines are local**: those that hold all that is read for them, in scripts whose loop
comes to them. A line of a key or a section yields its record wherever the loop comes to it, and
none where it does not; and the loop comes to it behind lines that hold what is read for them and
are not blank. -/
theorem line_record_iff (L : TextLine) :
    ((∀ b b' i i' p p', LineAt b i L → LineAt b' i' L → ComesTo b i → ComesTo b' i' →
      Yields b i p → Yields b' i' p' → p = p') ↔ SelfContained L) ∧
    (SelfContained L → ∀ b b' i i' p p', LineAt b i L → LineAt b' i' L → Yields b i p →
      Yields b' i' p' → (p = p' ↔ (ComesTo b i ↔ ComesTo b' i') ∨ L.product = .nothing)) ∧
    (L.content ≠ [] → ∀ pre post next rest img, Before pre →
      Compiles ⟨pre ++ (L.bytes ++ post), next, rest⟩ img →
      ComesTo ⟨pre ++ (L.bytes ++ post), next, rest⟩ pre.length) := by
  refine ⟨⟨fun h => ?_, fun h => ?_⟩, fun h => ?_, fun hne => ?_⟩
  · refine (lineLocal_iff L).mp fun b b' i i' p p' hat hat' hp hp' => ?_
    exact h b b' i i' p p' hat hat' ⟨p, hp⟩ ⟨p', hp'⟩ (.inl hp) (.inl hp')
  · intro b b' i i' p p' hat hat' hc hc' hp hp'
    exact (selfContained_yields h hat hat' hp hp').mpr (.inl (iff_of_true hc hc'))
  · intro b b' i i' p p' hat hat' hp hp'
    exact selfContained_yields h hat hat' hp hp'
  · intro pre post next rest img hpre hcomp
    obtain ⟨ch, c, hc⟩ := List.exists_cons_of_ne_nil hne
    have hch := (noEol_cons.mp (hc ▸ L.noEol)).1
    refine before_comesTo hpre ?_ ?_ hcomp
    · simp [TextLine.bytes, hc]
    · rw [TextLine.bytes, hc]
      intro hlf
      obtain rfl : ch = chLf := Option.some.inj hlf
      cases hch

/-- A key line without its `=` behind a section line: its record is completed from the line
behind it, and changes with it. -/
theorem open_key_line :
    ¬ LineLocal ⟨ascii "k", [chLf], by decide +kernel, by decide, by decide⟩ := by
  intro h
  have hone : Produces ⟨ascii "[a]\nk\nm=1\n", 0, [0]⟩ 4 (.subkey (ascii "k\nm") (ascii "1")) := by
    refine ⟨⟨ascii "k\nm=1\n" ++ [0, 0], 6, storeMainkey initTables (ascii "a")⟩,
      .tail .refl ?_ ?_, ?_, ?_, ?_⟩
    all_goals decide +kernel
  have htwo : Produces ⟨ascii "[a]\nk\nm=2\n", 0, [0]⟩ 4 (.subkey (ascii "k\nm") (ascii "2")) := by
    refine ⟨⟨ascii "k\nm=2\n" ++ [0, 0], 6, storeMainkey initTables (ascii "a")⟩,
      .tail .refl ?_ ?_, ?_, ?_, ?_⟩
    all_goals decide +kernel
  have heq := h _ _ 4 4 _ _ ⟨ascii "m=1\n", by decide +kernel, nofun, nofun⟩
    ⟨ascii "m=2\n", by decide +kernel, nofun, nofun⟩ hone htwo
  exact absurd heq (by decide)

end Lichee.Script

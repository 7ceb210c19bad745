import Lichee.Script.Lines
import Lichee.Script.Store

/- Scripts as they are written: sections of key lines, each value an integer, `string:S`
   or `"S"`. The structures carry what makes a script well formed, so `render` only has
   such scripts to render. What a line denotes is a record of the image (`KeyLine.record`),
   and the line readers and the value parser of the compiler read exactly that back from
   the line (`getKeyValue_line`, `getStr2int_written`). -/
namespace Lichee.Script
open Base

/-- The number the digits stand for. -/
def digitsVal (ds : List UInt8) : Nat := ds.foldl (fun v ch => v * 10 + (ch.toNat - 48)) 0

/-- The integer of a literal. -/
def literalVal (neg : Bool) (ds : List UInt8) : Int :=
  if neg then -(digitsVal ds : Int) else digitsVal ds

/-- A value, with 126 bytes at most. -/
inductive Written where
  | int (neg : Bool) (ds : List UInt8) (ne : ds ≠ []) (digits : ∀ c ∈ ds, isdigit c = true)
      (short : (if neg then 1 else 0) + ds.length ≤ 126) (low : -2147483648 ≤ literalVal neg ds)
      (high : literalVal neg ds < 2147483648)
  | named (s : List UInt8) (short : s.length ≤ 119) (nul : 0 ∉ s) (noEol : NoEol s)
      (last : ∀ c, s.getLast? = some c → isBlank c = false)
  | quoted (s : List UInt8) (short : s.length ≤ 124) (nul : 0 ∉ s) (noEol : NoEol s)
      (noQuote : chQuote ∉ s)

/-- The bytes of a value. -/
def Written.text : Written → List UInt8
  | .int neg ds .. => (if neg then [chMinus] else []) ++ ds
  | .named s .. => ascii "string:" ++ s
  | .quoted s .. => chQuote :: (s ++ [chQuote])

/-- The word of an integer literal. -/
def literalWord (neg : Bool) (ds : List UInt8) : UInt32 :=
  if neg then .ofNat (digitsVal ds) * -1 else .ofNat (digitsVal ds)

/-- The words of a string, zero-filled. -/
def stringData (s : List UInt8) : List UInt8 := padTo (wordsFor s.length * 4) s

theorem wordsFor_bounds (n : Nat) : n ≤ wordsFor n * 4 ∧ wordsFor n * 4 ≤ n + 3 := by
  unfold wordsFor
  split <;> omega

theorem stringData_length (s : List UInt8) : (stringData s).length = wordsFor s.length * 4 :=
  padTo_length_of_le (wordsFor_bounds _).1

/-- A string value of the image. -/
def stringValue (s : List UInt8) (h : s.length ≤ 124) : Value where
  type := .string
  data := stringData s
  words := by rw [stringData_length]; omega
  short := by have := wordsFor_bounds s.length; rw [stringData_length]; omega
  single := nofun

/-- What a value stands for in the image. -/
def Written.value : Written → Value
  | .int neg ds .. => ⟨.singleWord, le32 (literalWord neg ds), by simp, by simp, by simp⟩
  | .named s short .. => stringValue s (by omega)
  | .quoted s short .. => stringValue s short

/-- What `script_fetch` yields for a value: the integer in the first word, or the string,
cut or zero-filled to the words asked for. -/
def Written.Yields (count : Nat) (bytes : List UInt8) : Written → Prop
  | .int neg ds .. => ∃ w, toInt w = literalVal neg ds ∧ bytes = fillValue (le32 w) count
  | .named s .. => bytes = padTo (count * 4) (s.take (count * 4))
  | .quoted s .. => bytes = padTo (count * 4) (s.take (count * 4))

/-- A line `key = value`. -/
structure KeyLine where
  lead : List UInt8
  key : List UInt8
  gap : List UInt8
  gap' : List UInt8
  value : Written
  trail : List UInt8
  eol : List UInt8
  lead_blank : ∀ c ∈ lead, isBlank c = true
  gap_blank : ∀ c ∈ gap, isBlank c = true
  gap'_blank : ∀ c ∈ gap', isBlank c = true
  trail_blank : ∀ c ∈ trail, isBlank c = true
  key_short : key.length ≤ 31
  key_nul : 0 ∉ key
  key_eq : chEq ∉ key
  key_noEol : NoEol key
  key_head : ∃ c, key.head? = some c ∧ c ≠ chSemi ∧ c ≠ chOpen ∧ isBlank c = false
  key_last : ∀ c, key.getLast? = some c → isBlank c = false
  ended : LineEnd eol
  short : (lead ++ (key ++ (gap ++ chEq :: (gap' ++ (value.text ++ trail))))).length ≤ 500

/-- The line without its end. -/
def KeyLine.content (k : KeyLine) : List UInt8 :=
  k.lead ++ (k.key ++ (k.gap ++ chEq :: (k.gap' ++ (k.value.text ++ k.trail))))

/-- The record of a key line. -/
def KeyLine.record (k : KeyLine) : Record := ⟨k.key, k.value.value, k.key_short, k.key_nul⟩

/-- A section line and the key lines behind it. -/
structure SectionText where
  name : List UInt8
  eol : List UInt8
  keys : List KeyLine
  name_ne : name ≠ []
  name_short : name.length ≤ 31
  name_nul : 0 ∉ name
  name_close : chClose ∉ name
  name_noEol : NoEol name
  ended : LineEnd eol
  distinct : (keys.map (·.key)).Nodup

def SectionText.content (s : SectionText) : List UInt8 := chOpen :: (s.name ++ [chClose])

theorem head_ne_nul {l : List UInt8} (hne : l ≠ []) (h : 0 ∉ l) : l.headD 0 ≠ 0 := by
  obtain ⟨c, l', rfl⟩ := List.exists_cons_of_ne_nil hne
  rintro hc
  exact h (by rw [List.headD_cons] at hc; simp [hc])

/-- What a section denotes. -/
def SectionText.denote (s : SectionText) : Section where
  name := s.name
  records := s.keys.map (·.record)
  name_short := s.name_short
  name_head := head_ne_nul s.name_ne s.name_nul

/-- A script: 1 to 128 sections that fit the key area and the value area. -/
structure ScriptText where
  sections : List SectionText
  ne : sections ≠ []
  fits : Fits (sections.map (·.denote))
  distinct : (sections.map (·.name)).Nodup

def KeyLine.render (k : KeyLine) : List UInt8 := k.content ++ k.eol

def SectionText.render (s : SectionText) : List UInt8 :=
  s.content ++ s.eol ++ s.keys.flatMap (·.render)

def ScriptText.render (T : ScriptText) : List UInt8 := T.sections.flatMap (·.render)

def ScriptText.denote (T : ScriptText) : List Section := T.sections.map (·.denote)

/-! ## Comment lines -/

/-- A comment line: `;` and the text behind it. -/
structure CommentLine where
  text : List UInt8
  eol : List UInt8
  text_noEol : NoEol text
  ended : LineEnd eol
  short : text.length ≤ 499

/-- The line without its end. -/
def CommentLine.content (c : CommentLine) : List UInt8 := chSemi :: c.text

def CommentLine.render (c : CommentLine) : List UInt8 := c.content ++ c.eol

/-- A line behind a section line. -/
inductive BodyLine where
  | comment (c : CommentLine)
  | key (k : KeyLine)

def BodyLine.render : BodyLine → List UInt8
  | .comment c => c.render
  | .key k => k.render

/-- The key lines among the lines of a section. -/
def keysOf (body : List BodyLine) : List KeyLine :=
  body.filterMap fun
    | .comment _ => none
    | .key k => some k

/-- A section with comment lines, and what it is without them. -/
structure CommentedSection where
  plain : SectionText
  body : List BodyLine
  body_keys : keysOf body = plain.keys

def CommentedSection.render (s : CommentedSection) : List UInt8 :=
  s.plain.content ++ s.plain.eol ++ s.body.flatMap (·.render)

/-- A script with comment lines, and what it is without them. -/
structure CommentedScript where
  preamble : List CommentLine
  sections : List CommentedSection
  plain : ScriptText
  plain_sections : sections.map (·.plain) = plain.sections

def CommentedScript.render (T : CommentedScript) : List UInt8 :=
  T.preamble.flatMap (·.render) ++ T.sections.flatMap (·.render)

theorem keysOf_keys (keys : List KeyLine) : keysOf (keys.map .key) = keys := by
  rw [keysOf, List.filterMap_map]
  exact List.filterMap_some

/-- A script without comment lines as one that may have them. -/
def ScriptText.commented (T : ScriptText) : CommentedScript where
  preamble := []
  sections := T.sections.map fun s => ⟨s, s.keys.map .key, keysOf_keys s.keys⟩
  plain := T
  plain_sections := by
    rw [List.map_map]
    exact List.map_id _

theorem commented_render (T : ScriptText) : T.commented.render = T.render := by
  simp [CommentedScript.render, ScriptText.commented, ScriptText.render, List.flatMap_map,
    CommentedSection.render, SectionText.render, BodyLine.render]

/-! ## The readers on a key line -/

theorem checkLine_skip {b : List UInt8} {x : UInt8} {r : List UInt8}
    (hb : ∀ c ∈ b, isBlank c = true) (hx : isBlank x = false) (he : isEol x = false) :
    checkLine (b ++ x :: r) = .ok (some (x :: r)) := by
  induction b with
  | nil => rw [List.nil_append, checkLine, if_neg (by simp [hx]), if_neg (by simp [he])]
  | cons c b ih =>
    rw [List.cons_append, checkLine, if_pos (hb c (by simp))]
    exact ih fun z hz => hb z (by simp [hz])

theorem takeKey_take {a r : List UInt8} (ha : chEq ∉ a) {idx : Nat} (hi : idx ≤ 30) :
    takeKey (a ++ chEq :: r) idx =
      .ok (a.take (31 - idx), a.drop (31 - idx) ++ chEq :: r) := by
  induction a generalizing idx with
  | nil => simp [takeKey]
  | cons c a ih =>
    have hc : ¬ c = chEq := by rintro rfl; simp at ha
    have ha' : chEq ∉ a := fun h => ha (by simp [h])
    rw [List.cons_append, takeKey, if_neg hc]
    by_cases hlast : idx + 1 ≥ 31
    · obtain rfl : idx = 30 := by omega
      rw [if_pos hlast]
      simp
    · have hn : 31 - idx = (31 - (idx + 1)) + 1 := by omega
      rw [if_neg hlast, ih ha' (by omega), ok_bind, hn, List.take_succ_cons, List.drop_succ_cons]

theorem skipToEq_skip {a r : List UInt8} (ha : chEq ∉ a) :
    skipToEq (a ++ chEq :: r) = .ok r := by
  induction a with
  | nil => rw [List.nil_append, skipToEq, if_pos rfl]
  | cons c a ih =>
    have hc : ¬ c = chEq := by rintro rfl; simp at ha
    rw [List.cons_append, skipToEq, if_neg hc]
    exact ih fun h => ha (by simp [h])

theorem takeValue_take {a r : List UInt8} {e : UInt8} (ha : NoEol a) (he : isEol e = true)
    {idx : Nat} (hi : idx ≤ 126) :
    takeValue (a ++ e :: r) idx = .ok (a.take (127 - idx)) := by
  induction a generalizing idx with
  | nil => rw [List.nil_append, takeValue, if_pos he]; simp
  | cons c a ih =>
    obtain ⟨hc, ha'⟩ := noEol_cons.mp ha
    rw [List.cons_append, takeValue, if_neg (by simp [hc])]
    by_cases hlast : idx + 1 ≥ 127
    · obtain rfl : idx = 126 := by omega
      rw [if_pos hlast]
      simp
    · have hn : 127 - idx = (127 - (idx + 1)) + 1 := by omega
      rw [if_neg hlast, ih ha' (by omega), ok_bind, hn, List.take_succ_cons]

theorem takeName_close {a r : List UInt8} (ha : chClose ∉ a) {i : Nat}
    (hi : a.length + i ≤ 31) : takeName (a ++ chClose :: r) i = .ok a := by
  induction a generalizing i with
  | nil => rw [List.nil_append, takeName, if_pos rfl]
  | cons c a ih =>
    have hc : ¬ c = chClose := by rintro rfl; simp at ha
    rw [List.length_cons] at hi
    rw [List.cons_append, takeName, if_neg hc, if_neg (by unfold ITEM_NAME_MAX_LEN; omega),
      ih (fun h => ha (by simp [h])) (by omega), ok_bind]

/-- Blanks behind a text that does not end in one are trimmed. -/
theorem trim_blanks {a b : List UInt8} (ha : ∀ c, a.getLast? = some c → isBlank c = false)
    (hne : a ≠ []) (hb : ∀ c ∈ b, isBlank c = true) : trim (a ++ b) = a := by
  obtain ⟨x, a', rfl⟩ := List.exists_cons_of_ne_nil hne
  have hdrop : ∀ b : List UInt8, (∀ c ∈ b, isBlank c = true) →
      (a' ++ b).rdropWhile isBlank = a'.rdropWhile isBlank := by
    intro b
    induction b using List.reverseRecOn with
    | nil => simp
    | append_singleton b c ih =>
      intro hb
      rw [← List.append_assoc, List.rdropWhile_concat_pos _ _ _ (hb c (by simp))]
      exact ih fun z hz => hb z (by simp [hz])
  have hself : a'.rdropWhile isBlank = a' := by
    rcases List.eq_nil_or_concat' a' with rfl | ⟨l, c, rfl⟩
    · rfl
    · apply List.rdropWhile_concat_neg _ _ _
      rw [ha c (by rw [← List.cons_append, List.getLast?_concat])]
      decide
  rw [List.cons_append, trim, hdrop b hb, hself]

/-- What the readers rely on in a value: bytes of one line, between bytes that are no
blanks. -/
structure Plain (l : List UInt8) : Prop where
  short : l.length ≤ 126
  noEol : NoEol l
  head : ∃ c, l.head? = some c ∧ isBlank c = false
  last : ∀ c, l.getLast? = some c → isBlank c = false

theorem written_plain (w : Written) : Plain w.text := by
  cases w with
  | int neg ds ne digits short low high =>
    have hno : NoEol ds := fun c hc => digit_noEol (digits c hc)
    obtain ⟨d, ds', rfl⟩ := List.exists_cons_of_ne_nil ne
    refine ⟨?_, ?_, ?_, ?_⟩
    · cases neg <;> simp [Written.text] at short ⊢ <;> omega
    · cases neg
      · exact hno
      · exact noEol_cons.mpr ⟨by decide, hno⟩
    · cases neg
      · exact ⟨d, rfl, digit_noBlank (digits d (by simp))⟩
      · exact ⟨chMinus, rfl, by decide⟩
    · intro c hc
      rw [Written.text, List.getLast?_append] at hc
      have hlast : (d :: ds').getLast? = some ((d :: ds').getLast ne) :=
        List.getLast?_eq_some_getLast ne
      rw [hlast, Option.some_or, Option.some.injEq] at hc
      rw [← hc]
      exact digit_noBlank (digits _ (List.getLast_mem ne))
  | named s short nul noEol last =>
    refine ⟨?_, noEol_append.mpr ⟨by decide +kernel, noEol⟩, ⟨0x73, rfl, by decide⟩, ?_⟩
    · have : (ascii "string:").length = 7 := by decide
      simp only [Written.text, List.length_append, this]; omega
    · intro c hc
      rw [Written.text, List.getLast?_append] at hc
      cases hs : s.getLast? with
      | some z =>
        rw [hs, Option.some_or, Option.some.injEq] at hc
        rw [← hc]
        exact last z hs
      | none =>
        rw [hs, Option.none_or] at hc
        obtain rfl : 0x3a = c := Option.some.inj hc
        decide
  | quoted s short nul noEol noQuote =>
    refine ⟨?_, ?_, ⟨chQuote, rfl, by decide⟩, ?_⟩
    · simp only [Written.text, List.length_cons, List.length_append, List.length_nil]; omega
    · exact noEol_cons.mpr ⟨by decide, noEol_append.mpr ⟨noEol, by decide +kernel⟩⟩
    · intro c hc
      rw [Written.text, ← List.cons_append, List.getLast?_concat, Option.some.injEq] at hc
      rw [← hc]
      decide

theorem lineEnd_append {eol : List UInt8} (h : LineEnd eol) (X : List UInt8) :
    ∃ e Y, eol ++ X = e :: Y ∧ isEol e = true := by
  rcases h with rfl | rfl
  · exact ⟨chLf, X, rfl, rfl⟩
  · exact ⟨chCr, chLf :: X, rfl, rfl⟩

/-- Of a text and the blanks behind it, what fits a buffer is trimmed to the text. -/
theorem trim_take {a b : List UInt8} {n : Nat}
    (ha : ∀ c, a.getLast? = some c → isBlank c = false) (hne : a ≠ [])
    (hb : ∀ c ∈ b, isBlank c = true) (hn : a.length ≤ n) : trim ((a ++ b).take n) = a := by
  rw [List.take_append, List.take_of_length_le hn]
  exact trim_blanks ha hne fun c hc => hb c (List.mem_of_mem_take hc)

theorem eq_not_blank {l : List UInt8} (h : ∀ c ∈ l, isBlank c = true) : chEq ∉ l := by
  intro hmem
  exact absurd (h _ hmem) (by decide)

/-- **`__get_key_value` reads a key line back.** -/
theorem getKeyValue_line (k : KeyLine) (X : List UInt8) :
    getKeyValue (k.content ++ (k.eol ++ X)) = .ok (some (k.key, k.value.text)) := by
  have hp := written_plain k.value
  obtain ⟨e, Y, heol, he⟩ := lineEnd_append k.ended X
  obtain ⟨x, hx, -, -, hxb⟩ := k.key_head
  obtain ⟨key', hkey⟩ := List.head?_eq_some_iff.mp hx
  have hxe : isEol x = false := k.key_noEol x (by rw [hkey]; simp)
  obtain ⟨v, hv, hvb⟩ := hp.head
  obtain ⟨text', htext⟩ := List.head?_eq_some_iff.mp hv
  have hve : isEol v = false := hp.noEol v (by rw [htext]; simp)
  -- the key buffer takes the blanks before the `=` as far as they fit
  have hkeq : chEq ∉ k.key ++ k.gap := by
    simp only [List.mem_append, not_or]
    exact ⟨k.key_eq, eq_not_blank k.gap_blank⟩
  have hdrop : chEq ∉ (k.key ++ k.gap).drop 31 := fun h => hkeq (List.mem_of_mem_drop h)
  have htrimKey : trim ((k.key ++ k.gap).take 31) = k.key :=
    trim_take k.key_last (by rw [hkey]; simp) k.gap_blank k.key_short
  have htrimValue : trim ((k.value.text ++ k.trail).take 127) = k.value.text :=
    trim_take hp.last (by rw [htext]; simp) k.trail_blank (by have := hp.short; omega)
  have hvno : NoEol (k.value.text ++ k.trail) :=
    noEol_append.mpr ⟨hp.noEol, fun c hc => not_eol_of_blank (k.trail_blank c hc)⟩
  have hbuf : k.content ++ (k.eol ++ X) = k.lead ++ x :: (key' ++ (k.gap ++ chEq ::
      (k.gap' ++ v :: (text' ++ (k.trail ++ e :: Y))))) := by
    rw [heol, KeyLine.content, hkey, htext]
    simp only [List.append_assoc, List.cons_append]
  have hkeyTake : takeKey
      (x :: (key' ++ (k.gap ++ chEq :: (k.gap' ++ v :: (text' ++ (k.trail ++ e :: Y)))))) 0 =
      .ok ((k.key ++ k.gap).take 31,
        (k.key ++ k.gap).drop 31 ++ chEq :: (k.gap' ++ v :: (text' ++ (k.trail ++ e :: Y)))) := by
    rw [← takeKey_take hkeq (Nat.zero_le 30), hkey]
    simp only [List.append_assoc, List.cons_append]
  have hvalueTake : takeValue (v :: (text' ++ (k.trail ++ e :: Y))) 0 =
      .ok ((k.value.text ++ k.trail).take 127) := by
    rw [← takeValue_take (r := Y) hvno he (Nat.zero_le 126), htext]
    simp only [List.append_assoc, List.cons_append]
  unfold getKeyValue
  rw [hbuf, checkLine_skip k.lead_blank hxb hxe, ok_bind]
  dsimp only
  rw [hkeyTake, ok_bind]
  dsimp only
  rw [skipToEq_skip hdrop, ok_bind, checkLine_skip k.gap'_blank hvb hve, ok_bind]
  dsimp only
  rw [hvalueTake, ok_bind, htrimKey, htrimValue]

/-! ## The value parser on a value -/

theorem digit_toNat {c : UInt8} (h : isdigit c = true) : 48 ≤ c.toNat ∧ c.toNat ≤ 57 := by
  simp only [isdigit, Bool.and_eq_true, decide_eq_true_eq, UInt8.le_iff_toNat_le] at h
  exact h

theorem decStep_ofNat {c : UInt8} (h : isdigit c = true) (v : Nat) :
    decStep (.ofNat v) c = .ofNat (v * 10 + (c.toNat - 48)) := by
  obtain ⟨hlo, hhi⟩ := digit_toNat h
  have hsub : c.toUInt32 - 0x30 = .ofNat (c.toNat - 48) := by
    rw [← UInt32.toNat_inj, UInt32.toNat_sub_of_le _ _ (by
      rw [UInt32.le_iff_toNat_le, UInt8.toNat_toUInt32]; exact hlo)]
    rw [UInt8.toNat_toUInt32, UInt32.toNat_ofNat']
    simp only [UInt32.reduceToNat]
    omega
  rw [decStep, hsub, UInt32.ofNat_add, UInt32.ofNat_mul]
  rfl

theorem decVal_digits {ds : List UInt8} (hd : ∀ c ∈ ds, isdigit c = true) (r : List UInt8)
    (v : Nat) : decVal (ds ++ 0 :: r) (.ofNat v) =
      .ok (.ofNat (ds.foldl (fun v ch => v * 10 + (ch.toNat - 48)) v)) := by
  induction ds generalizing v with
  | nil => rfl
  | cons c ds ih =>
    have hc := hd c (by simp)
    have hne : ¬ c = 0 := digit_ne hc rfl
    rw [List.cons_append, decVal, if_neg hne, if_pos hc, decStep_ofNat hc,
      ih (fun z hz => hd z (by simp [hz])), List.foldl_cons]

theorem toInt_literalWord {neg : Bool} {ds : List UInt8} (low : -2147483648 ≤ literalVal neg ds)
    (high : literalVal neg ds < 2147483648) : toInt (literalWord neg ds) = literalVal neg ds := by
  cases neg with
  | false =>
    simp only [literalVal, Bool.false_eq_true, if_false] at high ⊢
    exact toInt_ofNat (by omega)
  | true =>
    simp only [literalVal, if_true] at low ⊢
    have hn : digitsVal ds ≤ 2147483648 := by omega
    have hw : (literalWord true ds).toBitVec.toNat = (4294967296 - digitsVal ds) % 4294967296 := by
      show (literalWord true ds).toNat = _
      have h1 : (-1 : UInt32).toNat = 4294967295 := rfl
      simp only [literalWord, if_true, UInt32.toNat_mul, UInt32.toNat_ofNat', h1]
      omega
    rw [toInt, BitVec.toInt_eq_toNat_cond, hw]
    split <;> omega

theorem countTo_stop {stop : UInt8} {a : List UInt8} (ha : stop ∉ a) (r : List UInt8)
    {idx : Nat} (hi : idx + a.length ≤ 127) :
    countTo stop (a ++ stop :: r) idx = .ok (idx + a.length) := by
  induction a generalizing idx with
  | nil => rw [List.nil_append, countTo, if_pos rfl]; rfl
  | cons c a ih =>
    have hc : ¬ c = stop := by rintro rfl; simp at ha
    rw [List.length_cons] at hi
    rw [List.cons_append, countTo, if_neg hc, if_neg (by omega),
      ih (fun h => ha (by simp [h])) (by omega), List.length_cons]
    congr 1; omega

/-- The bytes a string is copied to. -/
theorem strncpy_stringData {s : List UInt8} (hs : 0 ∉ s) (r : List UInt8) :
    strncpy (s ++ 0 :: r) (wordsFor s.length * 4) = stringData s := by
  rw [strncpy, cstr_append_nul hs, List.take_of_length_le (wordsFor_bounds _).1]
  rfl

theorem wordsFor_word {n : Nat} (h : n ≤ 124) :
    (UInt32.ofNat (wordsFor n)).toNat = wordsFor n := by
  have := wordsFor_bounds n
  rw [UInt32.toNat_ofNat']; omega

/-- The value buffer of a value: its bytes and at least one NUL. -/
theorem padTo_succ {l : List UInt8} (h : l.length ≤ 127) :
    padTo VALUE_MAX_LEN l = l ++ 0 :: zeros (127 - l.length) := by
  have hn : VALUE_MAX_LEN - l.length = (127 - l.length) + 1 := by unfold VALUE_MAX_LEN; omega
  rw [padTo, hn]
  rfl

/-- The buffer of a decimal number holds digits and NULs only. -/
theorem getD_digits {ds : List UInt8} (digits : ∀ c ∈ ds, isdigit c = true) (n i : Nat)
    {z : UInt8} (hz : isdigit z = false) (h0 : z ≠ 0) :
    (ds ++ 0 :: zeros n).getD i 0 ≠ z := by
  rw [List.getD_eq_getElem?_getD]
  cases hget : (ds ++ 0 :: zeros n)[i]? with
  | none => exact h0.symm
  | some c =>
    rcases List.mem_append.mp (List.mem_of_getElem? hget) with h | h
    · exact digit_ne (digits c h) hz
    · obtain rfl : c = 0 := by
        rcases List.mem_cons.mp h with h | h
        · exact h
        · exact List.eq_of_mem_replicate h
      exact h0.symm

theorem getStr2int_decimal {ds : List UInt8} (ne : ds ≠ [])
    (digits : ∀ c ∈ ds, isdigit c = true) (short : ds.length ≤ 127) :
    getStr2int (padTo VALUE_MAX_LEN ds) = .ok (some ⟨.singleWord,
      [.ofNat (digitsVal ds), 0, 0, 0, 0, 0, 0, 0], padTo VALUE_MAX_LEN ds⟩) := by
  obtain ⟨d, ds', rfl⟩ := List.exists_cons_of_ne_nil ne
  have hdig : isdigit d = true := digits d (by simp)
  have hlow := digit_tolower d hdig
  rw [padTo_succ short]
  have hval := decVal_digits digits (zeros (127 - (d :: ds').length)) 0
  have hget := fun i z => getD_digits digits (127 - (d :: ds').length) i (z := z)
  generalize zeros (127 - (d :: ds').length) = r at hval hget ⊢
  have hport : strncasecmp0 (d :: ds' ++ 0 :: r) (ascii "port:p") = false :=
    strncasecmp0_cons _ _ (by rw [hlow]; exact digit_ne hdig rfl)
  have hstring : strncasecmp0 (d :: ds' ++ 0 :: r) (ascii "string:") = false :=
    strncasecmp0_cons _ _ (by rw [hlow]; exact digit_ne hdig rfl)
  have hhex : ((d :: ds' ++ 0 :: r).getD 1 0 == chLowerX ||
      (d :: ds' ++ 0 :: r).getD 2 0 == chUpperX) = false := by
    simp only [Bool.or_eq_false_iff, beq_eq_false_iff_ne]
    exact ⟨hget 1 _ rfl (by decide), hget 2 _ rfl (by decide)⟩
  have hhead : (d :: ds' ++ 0 :: r).headD 0 = d := rfl
  have hquote : ¬ d = chQuote := digit_ne hdig rfl
  have hminus : ¬ d = chMinus := digit_ne hdig rfl
  unfold getStr2int
  rw [hport, hstring, hhead, hhex]
  simp only [Bool.false_eq_true, if_false, hquote, hminus, hdig, Bool.and_false, Bool.true_or,
    if_true]
  rw [show (0 : UInt32) = .ofNat 0 from rfl, hval, ok_bind]
  rfl

theorem getStr2int_negative {ds : List UInt8} (ne : ds ≠ [])
    (digits : ∀ c ∈ ds, isdigit c = true) (short : ds.length ≤ 126) :
    getStr2int (padTo VALUE_MAX_LEN (chMinus :: ds)) = .ok (some ⟨.singleWord,
      [.ofNat (digitsVal ds) * -1, 0, 0, 0, 0, 0, 0, 0], padTo VALUE_MAX_LEN (chMinus :: ds)⟩) := by
  obtain ⟨d, ds', rfl⟩ := List.exists_cons_of_ne_nil ne
  have hdig : isdigit d = true := digits d (by simp)
  rw [padTo_succ (by rw [List.length_cons]; omega)]
  have hval := decVal_digits digits (zeros (127 - (chMinus :: d :: ds').length)) 0
  generalize zeros (127 - (chMinus :: d :: ds').length) = r at hval ⊢
  have hport : strncasecmp0 (chMinus :: d :: ds' ++ 0 :: r) (ascii "port:p") = false :=
    strncasecmp0_cons _ _ (by decide)
  have hstring : strncasecmp0 (chMinus :: d :: ds' ++ 0 :: r) (ascii "string:") = false :=
    strncasecmp0_cons _ _ (by decide)
  have hhead : (chMinus :: d :: ds' ++ 0 :: r).headD 0 = chMinus := rfl
  have hsnd : (chMinus :: d :: ds' ++ 0 :: r).getD 1 0 = d := rfl
  have htail : (chMinus :: d :: ds' ++ 0 :: r).drop 1 = d :: ds' ++ 0 :: r := rfl
  have hquote : ¬ chMinus = chQuote := by decide
  have hminus : isdigit chMinus = false := rfl
  unfold getStr2int
  rw [hport, hstring, hhead, hsnd, htail, hminus]
  simp only [Bool.false_eq_true, if_false, hquote, hdig, Bool.false_and, Bool.false_or,
    Bool.true_and, beq_self_eq_true, if_true]
  rw [show (0 : UInt32) = .ofNat 0 from rfl, hval, ok_bind]
  rfl

theorem getStr2int_int {neg : Bool} {ds : List UInt8} (ne : ds ≠ [])
    (digits : ∀ c ∈ ds, isdigit c = true) (short : (if neg then 1 else 0) + ds.length ≤ 126) :
    ∃ r, getStr2int (padTo VALUE_MAX_LEN ((if neg then [chMinus] else []) ++ ds)) = .ok (some r) ∧
      r.type = .singleWord ∧ r.data = le32 (literalWord neg ds) := by
  cases neg with
  | false =>
    rw [if_neg Bool.false_ne_true, Nat.zero_add] at short
    have h := getStr2int_decimal ne digits (by omega)
    exact ⟨_, h, rfl, rfl⟩
  | true =>
    rw [if_pos rfl] at short
    have h := getStr2int_negative ne digits (by omega)
    exact ⟨_, h, rfl, rfl⟩

theorem getStr2int_named {s : List UInt8} (short : s.length ≤ 119) (nul : 0 ∉ s) :
    ∃ r, getStr2int (padTo VALUE_MAX_LEN (ascii "string:" ++ s)) = .ok (some r) ∧
      r.type = .string ∧ r.data = stringData s := by
  have h7 : (ascii "string:").length = 7 := by decide
  rw [padTo_succ (by rw [List.length_append, h7]; omega), List.append_assoc]
  generalize zeros (127 - (ascii "string:" ++ s).length) = r
  have hport : strncasecmp0 (ascii "string:" ++ (s ++ 0 :: r)) (ascii "port:p") = false :=
    strncasecmp0_cons _ _ (by decide)
  have hstring : strncasecmp0 (ascii "string:" ++ (s ++ 0 :: r)) (ascii "string:") = true := by
    rw [strncasecmp0, List.take_left]
    decide
  have hdrop : (ascii "string:" ++ (s ++ 0 :: r)).drop 7 = s ++ 0 :: r := List.drop_left' h7
  have hcount : countTo 0 (s ++ 0 :: r) 0 = .ok (0 + s.length) := countTo_stop nul r (by omega)
  refine ⟨⟨.string, [.ofNat (wordsFor s.length), 1, 0, 0, 0, 0, 0, 0],
    ascii "string:" ++ (s ++ 0 :: r)⟩, ?_, rfl, ?_⟩
  · unfold getStr2int
    rw [hport, hstring, hdrop, hcount, Nat.zero_add]
    rfl
  · show strncpy ((ascii "string:" ++ (s ++ 0 :: r)).drop 7)
      ((UInt32.ofNat (wordsFor s.length)).toNat * 4) = _
    rw [hdrop, wordsFor_word (by omega), strncpy_stringData nul]

theorem getStr2int_quoted {s : List UInt8} (short : s.length ≤ 124) (nul : 0 ∉ s)
    (noQuote : chQuote ∉ s) :
    ∃ r, getStr2int (padTo VALUE_MAX_LEN (chQuote :: (s ++ [chQuote]))) = .ok (some r) ∧
      r.type = .string ∧ r.data = stringData s := by
  rw [padTo_succ (by simp only [List.length_cons, List.length_append, List.length_nil]; omega)]
  have hlen : (zeros (127 - (chQuote :: (s ++ [chQuote])).length)).length = 125 - s.length := by
    simp only [zeros_length, List.length_cons, List.length_append, List.length_nil]; omega
  generalize zeros (127 - (chQuote :: (s ++ [chQuote])).length) = r at hlen
  have hbuf : chQuote :: (s ++ [chQuote]) ++ 0 :: r = chQuote :: (s ++ chQuote :: 0 :: r) := by
    simp
  rw [hbuf]
  have hport : strncasecmp0 (chQuote :: (s ++ chQuote :: 0 :: r)) (ascii "port:p") = false :=
    strncasecmp0_cons _ _ (by decide)
  have hstring : strncasecmp0 (chQuote :: (s ++ chQuote :: 0 :: r)) (ascii "string:") = false :=
    strncasecmp0_cons _ _ (by decide)
  have hcount : countTo chQuote (s ++ chQuote :: 0 :: r) 0 = .ok (0 + s.length) :=
    countTo_stop noQuote (0 :: r) (by omega)
  have hset : (chQuote :: (s ++ chQuote :: 0 :: r)).set (s.length + 1) 0 =
      chQuote :: (s ++ 0 :: 0 :: r) := by
    rw [List.set_cons_succ, List.set_append_right _ _ (Nat.le_refl _), Nat.sub_self]
    rfl
  refine ⟨⟨.string, [.ofNat (wordsFor s.length), 2, 0, 0, 0, 0, 0, 0],
    chQuote :: (s ++ 0 :: 0 :: r)⟩, ?_, rfl, ?_⟩
  · unfold getStr2int
    rw [hport, hstring]
    simp only [Bool.false_eq_true, if_false, List.headD_cons, if_true, List.drop_one,
      List.tail_cons, hcount, ok_bind, Nat.zero_add, hset]
    rw [if_pos (by simp only [List.length_cons, List.length_append]; omega)]
  · show strncpy ((chQuote :: (s ++ 0 :: 0 :: r)).drop 1)
      ((UInt32.ofNat (wordsFor s.length)).toNat * 4) = _
    rw [List.drop_one, List.tail_cons, wordsFor_word (by omega), strncpy_stringData nul]

/-- **`__get_str2int` reads a value back.** -/
theorem getStr2int_written (w : Written) :
    ∃ r, getStr2int (padTo VALUE_MAX_LEN w.text) = .ok (some r) ∧ r.type = w.value.type ∧
      r.data = w.value.data := by
  cases w with
  | int neg ds ne digits short low high => exact getStr2int_int ne digits short
  | named s short nul noEol last => exact getStr2int_named short nul
  | quoted s short nul noEol noQuote => exact getStr2int_quoted short nul noQuote

end Lichee.Script

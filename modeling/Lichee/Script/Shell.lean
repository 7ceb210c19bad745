import Lichee.Script.RoundTrip
import Mathlib.Data.List.Infix
import Mathlib.Data.List.Nodup

/- The shell reader of scripts (`script_fetch` of testcases/script_parser.sh). It has no
   tables: awk prints the first line, from the first one with the section's name in brackets
   on, whose part before `=` holds the key anywhere, without its blanks; what follows the `=`
   is the value. It reads what the C reader does (`shell_agrees_own`) if that line is the
   key's own and its value survives: no blank, nothing `echo` takes for an option, nothing
   the shell expands to file names. Another line may spell the value too
   (`shell_agrees_iff`), but whatever the value is. -/
namespace Lichee.Script
open Base

/-! ## The shell function -/

/-- The records of awk: the lines of a text. -/
def awkRecords : List UInt8 → List (List UInt8)
  | [] => []
  | c :: text =>
    if c = chLf then [] :: awkRecords text
    else match awkRecords text with
      | [] => [[c]]
      | line :: lines => (c :: line) :: lines

/-- `$1` with `-F '='`. -/
def field1 (line : List UInt8) : List UInt8 := line.takeWhile (· != chEq)

/-- The text `/\[section\]/` matches. -/
def bracketed (main : List UInt8) : List UInt8 := chOpen :: (main ++ [chClose])

/-- `gsub(/[[:blank:]]*/,"",$0)` -/
def gsubBlanks (line : List UInt8) : List UInt8 := line.filter (!isBlank ·)

/-- The awk program, with `a` as the lines before have left it. Both names are words, so each
pattern matches the texts that hold it. -/
def awkItem (main sub : List UInt8) : Bool → List (List UInt8) → Option (List UInt8)
  | _, [] => none
  | a, line :: lines =>
    if (a || decide (bracketed main <:+: line)) && decide (sub <:+: field1 line) then
      some (gsubBlanks line)
    else awkItem main sub (a || decide (bracketed main <:+: line)) lines

/-- `${item#*=}` -/
def afterEq (item : List UInt8) : List UInt8 :=
  if chEq ∈ item then (item.dropWhile (· != chEq)).tail else item

/-- `${retval%\"*}` -/
def beforeLastQuote (retval : List UInt8) : List UInt8 :=
  if chQuote ∈ retval then (retval.reverse.dropWhile (· != chQuote)).tail.reverse else retval

/-- `retval`, from the item awk has printed. -/
def shRetval (item : List UInt8) : List UInt8 :=
  let value := afterEq item
  if value.take 7 = ascii "string:" then value.drop 7
  else if value.take 1 = [chQuote] then beforeLastQuote (value.drop 1)
  else value

/-- A character of file name patterns: `*`, `?`, `[` or a backslash. -/
def isPatternChar (c : UInt8) : Bool := c == 0x2a || c == 0x3f || c == chOpen || c == 0x5c

/-- A word that `echo` takes for options: `n`, `e` and `E` behind a minus. -/
def isOption : List UInt8 → Bool
  | [] => false
  | c :: cs => c == chMinus && !cs.isEmpty && cs.all fun c => c == 0x6e || c == 0x65 || c == 0x45

/-- What `echo $retval` prints. What a word with pattern characters becomes is up to the files
there are. -/
def echo (expanded : List UInt8 → List UInt8) (retval : List UInt8) : List UInt8 :=
  if retval.any isPatternChar then expanded retval
  else if isOption retval then if 0x6e ∈ retval then [] else [chLf]
  else retval ++ [chLf]

/-- `script_fetch section key` on a file. -/
def scriptFetchSh (expanded : List UInt8 → List UInt8) (filp main sub : List UInt8) :
    List UInt8 :=
  echo expanded (shRetval ((awkItem main sub false (awkRecords filp)).getD []))

/-! ## Scripts for the shell -/

def isWordChar (c : UInt8) : Bool := isdigit c || isupper c || islower c || c == 0x5f

/-- A name of 31 bytes at most: letters, digits and underscores. -/
abbrev Word := { l : List UInt8 // l ≠ [] ∧ l.length ≤ 31 ∧ ∀ c ∈ l, isWordChar c = true }

/-- A character or a blank. -/
def isText (c : UInt8) : Bool := isBlank c || (0x20 < c && c < 0x7f)

/-- The comment lines of a script. -/
def CommentedScript.comments (T : CommentedScript) : List CommentLine :=
  T.preamble ++ T.sections.flatMap fun s => s.body.filterMap fun
    | .comment c => some c
    | .key _ => none

/-- A script whose names are words and whose texts can be printed. -/
structure ShellScript extends CommentedScript where
  names : ∀ s ∈ plain.sections, ∀ c ∈ s.name, isWordChar c = true
  keys : ∀ s ∈ plain.sections, ∀ k ∈ s.keys, ∀ c ∈ k.key, isWordChar c = true
  values : ∀ s ∈ plain.sections, ∀ k ∈ s.keys, ∀ c ∈ k.value.text, isText c = true
  texts : ∀ c ∈ toCommentedScript.comments, ∀ x ∈ c.text, isText x = true

/-- A line as awk sees it: with the carriage return of its end. -/
def lineOf (content eol : List UInt8) : List UInt8 := content ++ eol.dropLast

def KeyLine.line (k : KeyLine) : List UInt8 := lineOf k.content k.eol

def BodyLine.line : BodyLine → List UInt8
  | .comment c => lineOf c.content c.eol
  | .key k => k.line

/-- The lines of a script. -/
def CommentedScript.lines (T : CommentedScript) : List (List UInt8) :=
  T.preamble.map (fun c => lineOf c.content c.eol) ++
    T.sections.flatMap fun s => lineOf s.plain.content s.plain.eol :: s.body.map (·.line)

/-- `k` is the key line of the two names. -/
def CommentedScript.Has (T : CommentedScript) (main sub : List UInt8) (k : KeyLine) : Prop :=
  ∃ s ∈ T.plain.sections, k ∈ s.keys ∧ s.name = main ∧ k.key = sub

/-! ## Agreement -/

/-- A line with the section in brackets on it or before it, and the key before its `=`. -/
def Eligible (main sub : List UInt8) (pre : List (List UInt8)) (l : List UInt8) : Prop :=
  (∃ x ∈ pre ++ [l], bracketed main <:+: x) ∧ sub <:+: field1 l

/-- `l` is the first eligible line. -/
def Picks (main sub : List UInt8) (lines : List (List UInt8)) (l : List UInt8) : Prop :=
  ∃ pre post, lines = pre ++ l :: post ∧ Eligible main sub pre l ∧
    ∀ p x q, pre = p ++ x :: q → ¬ Eligible main sub p x

/-- The printed line spells the value. -/
def Spells (printed : List UInt8) : Written → Prop
  | .int neg ds .. => ∃ neg' ds', ds' ≠ [] ∧ (∀ c ∈ ds', isdigit c = true) ∧
      printed = (if neg' then [chMinus] else []) ++ ds' ++ [chLf] ∧
        literalVal neg' ds' = literalVal neg ds
  | .named s .. => printed = s ++ [chLf]
  | .quoted s .. => printed = s ++ [chLf]

/-- What a picked line is printed as. -/
def printedAs (expanded : List UInt8 → List UInt8) (l : List UInt8) : List UInt8 :=
  echo expanded (shRetval (gsubBlanks l))

/-- The shell prints what the C reader returns from the compiled script, and an empty line
where that reports the key as missing. -/
def Agrees (expanded : List UInt8 → List UInt8) (T : ShellScript) (next : UInt8)
    (rest main sub : List UInt8) : Prop :=
  ∃ img attached, Compiles ⟨T.render, next, rest⟩ img ∧ initScript img = some attached ∧
    ∀ count, 1 ≤ count → ∃ f, scriptFetch attached main sub count = some f ∧
      (f.ret = 0 → ∃ k, T.Has main sub k ∧ k.value.Yields count f.value ∧
        Spells (scriptFetchSh expanded T.render main sub) k.value) ∧
      (f.ret ≠ 0 → scriptFetchSh expanded T.render main sub = [chLf])

/-- A string that the shell hands through: the word it becomes is the string, and `echo` prints
it as it is. -/
def Survives (expanded : List UInt8 → List UInt8) (s word : List UInt8) : Prop :=
  if word.any isPatternChar then expanded word = s ++ [chLf]
  else word = s ∧ isOption s = false

/-- The value of a key line survives: an integer has no carriage return behind it, and a string
no blank in it. -/
def KeyLine.Clean (expanded : List UInt8 → List UInt8) (k : KeyLine) : Prop :=
  match k.value with
  | .int .. => k.eol = [chLf]
  | .named s .. => Survives expanded s (gsubBlanks s ++ k.eol.dropLast)
  | .quoted s .. => Survives expanded s (gsubBlanks s)

/-! ## awk on a script -/

theorem awkRecords_append {l : List UInt8} (h : chLf ∉ l) (text : List UInt8) :
    awkRecords (l ++ chLf :: text) = l :: awkRecords text := by
  induction l with
  | nil => rfl
  | cons c l ih =>
    have hc : c ≠ chLf := fun hc => h (by simp [hc])
    rw [List.cons_append, awkRecords, if_neg hc, ih fun hin => h (List.mem_cons_of_mem _ hin)]

/-- A line and its end are one record. -/
theorem awkRecords_line {content eol : List UInt8} (hc : NoEol content) (he : LineEnd eol)
    (text : List UInt8) :
    awkRecords (content ++ eol ++ text) = lineOf content eol :: awkRecords text := by
  have hno : chLf ∉ content := fun hin => by simpa [isEol] using hc _ hin
  rcases he with rfl | rfl
  · rw [List.append_assoc]
    show awkRecords (content ++ chLf :: text) = _
    rw [awkRecords_append hno, lineOf]
    simp
  · show awkRecords (content ++ [chCr, chLf] ++ text) = (content ++ [chCr]) :: awkRecords text
    have hcr : chLf ∉ content ++ [chCr] := by
      rw [List.mem_append, not_or]
      exact ⟨hno, by decide⟩
    rw [← awkRecords_append hcr]
    simp

theorem awkRecords_body (body : List BodyLine) (text : List UInt8) :
    awkRecords (body.flatMap (·.render) ++ text) = body.map (·.line) ++ awkRecords text := by
  induction body with
  | nil => rfl
  | cons l body ih =>
    rw [List.flatMap_cons, List.append_assoc, List.map_cons, List.cons_append, ← ih]
    cases l with
    | comment c => exact awkRecords_line (noEol_cons.mpr ⟨by decide, c.text_noEol⟩) c.ended _
    | key k => exact awkRecords_line (content_noEol k) k.ended _

theorem awkRecords_preamble (cs : List CommentLine) (text : List UInt8) :
    awkRecords (cs.flatMap (·.render) ++ text) =
      cs.map (fun c => lineOf c.content c.eol) ++ awkRecords text := by
  induction cs with
  | nil => rfl
  | cons c cs ih =>
    rw [List.flatMap_cons, List.append_assoc, List.map_cons, List.cons_append, ← ih]
    exact awkRecords_line (noEol_cons.mpr ⟨by decide, c.text_noEol⟩) c.ended _

theorem sectionContent_noEol (s : SectionText) : NoEol s.content := by
  rw [SectionText.content, noEol_cons, noEol_append]
  exact ⟨by decide, s.name_noEol, by decide +kernel⟩

/-- **The records of a script are its lines.** -/
theorem awkRecords_render (T : CommentedScript) : awkRecords T.render = T.lines := by
  have hsections : ∀ S : List CommentedSection, awkRecords (S.flatMap (·.render)) =
      S.flatMap fun s => lineOf s.plain.content s.plain.eol :: s.body.map (·.line) := by
    intro S
    induction S with
    | nil => rfl
    | cons s S ih =>
      rw [List.flatMap_cons, List.flatMap_cons, CommentedSection.render, List.append_assoc,
        awkRecords_line (sectionContent_noEol s.plain) s.plain.ended, awkRecords_body, ih]
      rfl
  rw [CommentedScript.render, awkRecords_preamble, hsections, CommentedScript.lines]

/-- A line that is passed over stands before those behind it. -/
theorem passed_over {main sub line : List UInt8} {seen xs : List (List UInt8)}
    (hnot : ¬ Eligible main sub seen line)
    (hrest : ∀ p x q, xs = p ++ x :: q → ¬ Eligible main sub (seen ++ [line] ++ p) x) :
    ∀ p x q, line :: xs = p ++ x :: q → ¬ Eligible main sub (seen ++ p) x := by
  intro p x q hp
  cases p with
  | nil =>
    obtain ⟨rfl, -⟩ := List.cons.inj hp
    rw [List.append_nil]
    exact hnot
  | cons y p =>
    obtain ⟨rfl, hxs⟩ := List.cons.inj hp
    rw [List.append_cons]
    exact hrest p x q hxs

/-- Behind the lines `seen`, awk prints the first eligible line, or there is none. -/
theorem awkItem_spec (main sub : List UInt8) (lines : List (List UInt8)) :
    ∀ (seen : List (List UInt8)) (a : Bool), (a = true ↔ ∃ x ∈ seen, bracketed main <:+: x) →
      match awkItem main sub a lines with
      | some item => ∃ l pre post, lines = pre ++ l :: post ∧ item = gsubBlanks l ∧
          Eligible main sub (seen ++ pre) l ∧
            ∀ p x q, pre = p ++ x :: q → ¬ Eligible main sub (seen ++ p) x
      | none => ∀ p x q, lines = p ++ x :: q → ¬ Eligible main sub (seen ++ p) x := by
  induction lines with
  | nil =>
    intro seen a _ p x q h
    simp at h
  | cons line lines ih =>
    intro seen a ha
    have ha' : (a || decide (bracketed main <:+: line)) = true ↔
        ∃ x ∈ seen ++ [line], bracketed main <:+: x := by
      simp only [Bool.or_eq_true, decide_eq_true_eq, ha, List.mem_append, List.mem_singleton,
        or_and_right, exists_or, exists_eq_left]
    have helig : ((a || decide (bracketed main <:+: line)) &&
        decide (sub <:+: field1 line)) = true ↔ Eligible main sub seen line := by
      rw [Bool.and_eq_true, ha', decide_eq_true_eq, Eligible]
    rw [awkItem]
    by_cases h : ((a || decide (bracketed main <:+: line)) &&
        decide (sub <:+: field1 line)) = true
    · rw [if_pos h]
      refine ⟨line, [], lines, rfl, rfl, ?_, fun p x q hp => by simp at hp⟩
      rw [List.append_nil]
      exact helig.mp h
    · rw [if_neg h]
      -- the line is passed over, and the others have it behind them
      have hnot : ¬ Eligible main sub seen line := mt helig.mpr h
      have hrest := ih (seen ++ [line]) _ ha'
      cases hitem : awkItem main sub (a || decide (bracketed main <:+: line)) lines with
      | some item =>
        rw [hitem] at hrest
        obtain ⟨l, pre, post, hlines, hi, hl, hfirst⟩ := hrest
        rw [← List.append_cons] at hl
        exact ⟨l, line :: pre, post, by rw [hlines]; rfl, hi, hl, passed_over hnot hfirst⟩
      | none =>
        rw [hitem] at hrest
        exact passed_over hnot hrest

theorem picks_unique {main sub l l' : List UInt8} {lines : List (List UInt8)}
    (h : Picks main sub lines l) (h' : Picks main sub lines l') : l = l' := by
  obtain ⟨pre, post, hlines, helig, hfirst⟩ := h
  obtain ⟨pre', post', hlines', helig', hfirst'⟩ := h'
  rw [hlines] at hlines'
  rcases List.append_eq_append_iff.mp hlines' with ⟨p, hpre, hpost⟩ | ⟨p, hpre, hpost⟩
  · cases p with
    | nil => exact (List.cons.inj hpost).1
    | cons x p =>
      obtain ⟨rfl, -⟩ := List.cons.inj hpost
      exact absurd helig (hfirst' pre l p hpre)
  · cases p with
    | nil => exact (List.cons.inj hpost).1.symm
    | cons x p =>
      obtain ⟨rfl, -⟩ := List.cons.inj hpost
      exact absurd helig' (hfirst pre' l' p hpre)

section Fetch
variable {expanded : List UInt8 → List UInt8} {T : CommentedScript} {main sub : List UInt8}

/-- The shell prints the picked line. -/
theorem scriptFetchSh_picks {l : List UInt8} (h : Picks main sub T.lines l) :
    scriptFetchSh expanded T.render main sub = printedAs expanded l := by
  have hspec := awkItem_spec main sub T.lines [] false (by simp)
  rw [scriptFetchSh, awkRecords_render]
  cases hitem : awkItem main sub false T.lines with
  | some item =>
    rw [hitem] at hspec
    obtain ⟨l', pre, post, hlines, rfl, helig, hfirst⟩ := hspec
    rw [picks_unique h ⟨pre, post, hlines, helig, hfirst⟩]
    rfl
  | none =>
    rw [hitem] at hspec
    obtain ⟨pre, post, hlines, helig, -⟩ := h
    exact absurd helig (hspec pre l post hlines)

/-- A line is picked where one is eligible. -/
theorem exists_picks {pre post : List (List UInt8)} {l : List UInt8}
    (hlines : T.lines = pre ++ l :: post) (helig : Eligible main sub pre l) :
    ∃ l', Picks main sub T.lines l' := by
  have hspec := awkItem_spec main sub T.lines [] false (by simp)
  cases hitem : awkItem main sub false T.lines with
  | some item =>
    rw [hitem] at hspec
    obtain ⟨l', pre', post', hlines', -, helig', hfirst⟩ := hspec
    exact ⟨l', pre', post', hlines', helig', hfirst⟩
  | none =>
    rw [hitem] at hspec
    exact absurd helig (hspec pre l post hlines)

/-- An empty line is printed where no line is eligible. -/
theorem scriptFetchSh_none (h : ∀ l, ¬ Picks main sub T.lines l) :
    scriptFetchSh expanded T.render main sub = [chLf] := by
  have hspec := awkItem_spec main sub T.lines [] false (by simp)
  rw [scriptFetchSh, awkRecords_render]
  cases hitem : awkItem main sub false T.lines with
  | some item =>
    rw [hitem] at hspec
    obtain ⟨l, pre, post, hlines, -, helig, hfirst⟩ := hspec
    exact absurd ⟨pre, post, hlines, helig, hfirst⟩ (h l)
  | none => rfl

end Fetch

/-! ## The line of a key -/

/-- A value of one word or string, as the shell gets it from the key's own line. -/
def Written.word (eol : List UInt8) : Written → List UInt8
  | .int neg ds .. => (if neg then [chMinus] else []) ++ ds ++ eol.dropLast
  | .named s .. => gsubBlanks s ++ eol.dropLast
  | .quoted s .. => gsubBlanks s

theorem gsubBlanks_append (a b : List UInt8) : gsubBlanks (a ++ b) = gsubBlanks a ++ gsubBlanks b :=
  List.filter_append ..

theorem gsubBlanks_blank {l : List UInt8} (h : ∀ c ∈ l, isBlank c = true) : gsubBlanks l = [] := by
  rw [gsubBlanks, List.filter_eq_nil_iff]
  intro c hc
  simp [h c hc]

theorem gsubBlanks_self {l : List UInt8} : gsubBlanks l = l ↔ ∀ c ∈ l, isBlank c = false := by
  rw [gsubBlanks, List.filter_eq_self]
  simp

/-- A word character stands for itself. -/
theorem isWordChar_plain (c : UInt8) (h : isWordChar c = true) : isBlank c = false ∧ c ≠ chEq := by
  have hall := byte_cases
    (P := fun c => isWordChar c = true → isBlank c = false ∧ c ≠ chEq) (by decide +kernel)
  exact hall c h

/-- No character of a number is taken for anything else by the shell. -/
theorem number_plain (c : UInt8) (h : isdigit c = true ∨ c = chMinus ∨ c = chCr) :
    isBlank c = false ∧ isPatternChar c = false ∧ c ≠ 0x73 ∧ c ≠ chQuote := by
  have hall := byte_cases (P := fun c => isdigit c = true ∨ c = chMinus ∨ c = chCr →
    isBlank c = false ∧ isPatternChar c = false ∧ c ≠ 0x73 ∧ c ≠ chQuote) (by decide +kernel)
  exact hall c h

theorem digit_not_option (c : UInt8) (h : isdigit c = true) :
    (c == 0x6e || c == 0x65 || c == 0x45) = false := by
  have hall := byte_cases (P := fun c => isdigit c = true →
    (c == 0x6e || c == 0x65 || c == 0x45) = false) (by decide +kernel)
  exact hall c h

/-- The item of a key line: the key, and the value without its blanks. -/
theorem gsubBlanks_keyLine {k : KeyLine} (hkey : ∀ c ∈ k.key, isWordChar c = true) :
    gsubBlanks k.line = k.key ++ chEq :: (gsubBlanks k.value.text ++ k.eol.dropLast) := by
  have hself : gsubBlanks k.key = k.key :=
    gsubBlanks_self.mpr fun c hc => (isWordChar_plain c (hkey c hc)).1
  have heol : gsubBlanks k.eol.dropLast = k.eol.dropLast := by
    rcases k.ended with h | h <;> rw [h] <;> rfl
  have heq : ∀ l, gsubBlanks (chEq :: l) = chEq :: gsubBlanks l := fun _ => rfl
  simp only [KeyLine.line, lineOf, KeyLine.content, gsubBlanks_append, heq,
    gsubBlanks_blank k.lead_blank, gsubBlanks_blank k.gap_blank, gsubBlanks_blank k.gap'_blank,
    gsubBlanks_blank k.trail_blank, hself, heol, List.nil_append,
    List.append_assoc, List.cons_append]

theorem dropWhile_to {z : UInt8} {a b : List UInt8} (h : z ∉ a) :
    (a ++ z :: b).dropWhile (· != z) = z :: b := by
  induction a with
  | nil => simp
  | cons c a ih =>
    have hc : c ≠ z := fun hc => h (by simp [hc])
    rw [List.cons_append, List.dropWhile_cons_of_pos (by simpa using hc)]
    exact ih fun hin => h (List.mem_cons_of_mem _ hin)

theorem afterEq_key {key value : List UInt8} (h : chEq ∉ key) :
    afterEq (key ++ chEq :: value) = value := by
  rw [afterEq, if_pos (by simp), dropWhile_to h, List.tail_cons]

/-- What stands before the last quote. -/
theorem beforeLastQuote_append {a b : List UInt8} (h : chQuote ∉ b) :
    beforeLastQuote (a ++ chQuote :: b) = a := by
  have hrev : (a ++ chQuote :: b).reverse = b.reverse ++ chQuote :: a.reverse := by simp
  rw [beforeLastQuote, if_pos (by simp), hrev, dropWhile_to (by simpa using h), List.tail_cons,
    List.reverse_reverse]

theorem eol_dropLast {eol : List UInt8} (h : LineEnd eol) :
    eol.dropLast = [] ∧ eol = [chLf] ∨ eol.dropLast = [chCr] ∧ eol = [chCr, chLf] := by
  rcases h with rfl | rfl
  · exact .inl ⟨rfl, rfl⟩
  · exact .inr ⟨rfl, rfl⟩

/-- A number and what may stand behind it. -/
theorem int_chars (neg : Bool) {ds eol : List UInt8} (digits : ∀ c ∈ ds, isdigit c = true)
    (h : LineEnd eol) : ∀ c ∈ (if neg then [chMinus] else []) ++ ds ++ eol.dropLast,
      isdigit c = true ∨ c = chMinus ∨ c = chCr := by
  intro c hc
  rcases List.mem_append.mp hc with hc | hc
  · rcases List.mem_append.mp hc with hc | hc
    · cases neg with
      | false => simp at hc
      | true => exact .inr (.inl (by simpa using hc))
    · exact .inl (digits c hc)
  · rcases eol_dropLast h with ⟨he, -⟩ | ⟨he, -⟩
    · simp [he] at hc
    · exact .inr (.inr (by simpa [he] using hc))

/-- The word of a key's own line. -/
theorem shRetval_keyLine {k : KeyLine} (hkey : ∀ c ∈ k.key, isWordChar c = true) :
    shRetval (gsubBlanks k.line) = k.value.word k.eol := by
  have hno : chEq ∉ k.key := fun hin => (isWordChar_plain _ (hkey _ hin)).2 rfl
  rw [gsubBlanks_keyLine hkey]
  simp only [shRetval, afterEq_key hno]
  cases k.value with
  | int neg ds ne digits short low high =>
    have hchars := int_chars neg digits k.ended
    have htext : gsubBlanks ((if neg then [chMinus] else []) ++ ds) =
        (if neg then [chMinus] else []) ++ ds :=
      gsubBlanks_self.mpr fun c hc =>
        (number_plain c (hchars c (List.mem_append_left _ hc))).1
    rw [Written.text, Written.word, htext]
    generalize (if neg then [chMinus] else []) ++ ds ++ k.eol.dropLast = word at hchars
    cases word with
    | nil => rfl
    | cons c word =>
      obtain ⟨-, -, hs, hq⟩ := number_plain c (hchars c (by simp))
      -- a number begins with neither of the two marks of a string
      have hstring : (c :: word).take 7 ≠ ascii "string:" := fun h => hs (List.cons.inj h).1
      have hquote : (c :: word).take 1 ≠ [chQuote] := fun h => hq (List.cons.inj h).1
      rw [if_neg hstring, if_neg hquote]
  | named s =>
    have htext : gsubBlanks (ascii "string:" ++ s) = ascii "string:" ++ gsubBlanks s := by
      rw [gsubBlanks_append]
      rfl
    have h7 : (ascii "string:").length = 7 := by decide
    rw [Written.text, Written.word, htext, List.append_assoc, List.take_left' h7, if_pos rfl,
      List.drop_left' h7]
  | quoted s =>
    have htext : gsubBlanks (chQuote :: (s ++ [chQuote])) =
        chQuote :: (gsubBlanks s ++ [chQuote]) := by
      rw [show chQuote :: (s ++ [chQuote]) = [chQuote] ++ (s ++ [chQuote]) from rfl,
        gsubBlanks_append, gsubBlanks_append]
      rfl
    have hcr : chQuote ∉ k.eol.dropLast := by
      rcases eol_dropLast k.ended with ⟨he, -⟩ | ⟨he, -⟩ <;> rw [he] <;> decide
    have hstring : (chQuote :: (gsubBlanks s ++ [chQuote]) ++ k.eol.dropLast).take 7 ≠
        ascii "string:" := fun h => absurd (List.cons.inj h).1 (by decide)
    have hquote : (chQuote :: (gsubBlanks s ++ [chQuote]) ++ k.eol.dropLast).take 1 = [chQuote] :=
      rfl
    rw [Written.text, Written.word, htext, if_neg hstring, if_pos hquote]
    show beforeLastQuote (gsubBlanks s ++ [chQuote] ++ k.eol.dropLast) = _
    rw [List.append_assoc]
    exact beforeLastQuote_append hcr

theorem echo_survives {expanded : List UInt8 → List UInt8} {s word : List UInt8}
    (hopt : isOption word = true → s ≠ []) :
    echo expanded word = s ++ [chLf] ↔ Survives expanded s word := by
  rw [echo, Survives]
  by_cases hpattern : word.any isPatternChar = true
  · rw [if_pos hpattern, if_pos hpattern]
  · rw [if_neg hpattern, if_neg hpattern]
    cases hoption : isOption word with
    | true =>
      -- `echo` prints no word at all
      have hne := hopt hoption
      refine iff_of_false ?_ fun ⟨hword, hno⟩ => by rw [← hword, hoption] at hno; cases hno
      obtain ⟨c, s, rfl⟩ := List.exists_cons_of_ne_nil hne
      rw [if_pos rfl]
      split <;> simp
    | false =>
      rw [if_neg Bool.false_ne_true, List.append_left_inj]
      exact ⟨fun hword => ⟨hword, by rw [← hword, hoption]⟩, fun h => h.1⟩

/-- A number is printed as it is. -/
theorem echo_int {expanded : List UInt8 → List UInt8} {neg : Bool} {ds eol : List UInt8}
    (ne : ds ≠ []) (digits : ∀ c ∈ ds, isdigit c = true) (h : LineEnd eol) :
    echo expanded ((if neg then [chMinus] else []) ++ ds ++ eol.dropLast) =
      (if neg then [chMinus] else []) ++ ds ++ eol.dropLast ++ [chLf] := by
  have hchars := int_chars neg digits h
  have hpattern : ¬ ((if neg then [chMinus] else []) ++ ds ++ eol.dropLast).any
      isPatternChar = true := by
    rw [List.any_eq_true]
    rintro ⟨c, hc, hp⟩
    rw [(number_plain c (hchars c hc)).2.1] at hp
    cases hp
  have hoption : isOption ((if neg then [chMinus] else []) ++ ds ++ eol.dropLast) = false := by
    obtain ⟨d, ds, rfl⟩ := List.exists_cons_of_ne_nil ne
    have hd : isdigit d = true := digits d (by simp)
    cases neg with
    | false =>
      have hminus : d ≠ chMinus := digit_ne hd rfl
      simp [isOption, hminus]
    | true => simp [isOption, digit_not_option d hd]
  rw [echo, if_neg hpattern, hoption, if_neg Bool.false_ne_true]

/-- **A key line reads as its value just when the value survives.** -/
theorem spells_keyLine (expanded : List UInt8 → List UInt8) {k : KeyLine}
    (hkey : ∀ c ∈ k.key, isWordChar c = true) :
    Spells (printedAs expanded k.line) k.value ↔ k.Clean expanded := by
  rw [printedAs, shRetval_keyLine hkey, KeyLine.Clean]
  cases k.value with
  | int neg ds ne digits short low high =>
    rw [Written.word, echo_int ne digits k.ended]
    refine ⟨?_, ?_⟩
    · rintro ⟨neg', ds', hne', hdigits', hprinted, -⟩
      rcases eol_dropLast k.ended with ⟨-, he⟩ | ⟨hcr, -⟩
      · exact he
      · -- the last character of a number is a digit
        rw [hcr, List.append_left_inj] at hprinted
        have hlast := congrArg List.getLast? hprinted
        rw [List.getLast?_concat, List.getLast?_append, List.getLast?_eq_some_getLast hne',
          Option.some_or, Option.some.injEq] at hlast
        have hd := hdigits' _ (List.getLast_mem hne')
        rw [← hlast] at hd
        cases hd
    · intro he
      refine ⟨neg, ds, ne, digits, ?_, rfl⟩
      rw [he]
      simp
  | named s =>
    apply echo_survives
    rintro hopt rfl
    change isOption k.eol.dropLast = true at hopt
    rcases eol_dropLast k.ended with ⟨he, -⟩ | ⟨he, -⟩ <;> rw [he] at hopt <;> cases hopt
  | quoted s =>
    apply echo_survives
    rintro hopt rfl
    cases hopt

/-! ## The two readers -/

/-- The lines of a script around one of its sections. -/
theorem lines_section {T : CommentedScript} {S₁ S₂ : List CommentedSection} {s : CommentedSection}
    (h : T.sections = S₁ ++ s :: S₂) : ∃ pre post,
      T.lines = pre ++ lineOf s.plain.content s.plain.eol :: (s.body.map (·.line) ++ post) := by
  refine ⟨T.preamble.map (fun c => lineOf c.content c.eol) ++ S₁.flatMap fun s =>
    lineOf s.plain.content s.plain.eol :: s.body.map (·.line), S₂.flatMap fun s =>
      lineOf s.plain.content s.plain.eol :: s.body.map (·.line), ?_⟩
  rw [CommentedScript.lines, h, List.flatMap_append, List.flatMap_cons, List.append_assoc,
    List.cons_append]

theorem field1_keyLine (k : KeyLine) : field1 k.line = k.lead ++ k.key ++ k.gap := by
  have hno : ∀ c ∈ k.lead ++ k.key ++ k.gap, (c != chEq) = true := by
    intro c hc
    rw [bne_iff_ne]
    rintro rfl
    rcases List.mem_append.mp hc with hc | hc
    · rcases List.mem_append.mp hc with hc | hc
      · exact eq_not_blank k.lead_blank hc
      · exact k.key_eq hc
    · exact eq_not_blank k.gap_blank hc
  have hline : k.line = (k.lead ++ k.key ++ k.gap) ++
      chEq :: (k.gap' ++ (k.value.text ++ k.trail) ++ k.eol.dropLast) := by
    simp [KeyLine.line, lineOf, KeyLine.content]
  rw [field1, hline, List.takeWhile_append_of_pos hno, List.takeWhile_cons_of_neg (by simp),
    List.append_nil]

/-- The key line of two names is eligible: its section's line stands before it. -/
theorem has_eligible {T : CommentedScript} {main sub : List UInt8} {k : KeyLine}
    (h : T.Has main sub k) :
    ∃ pre post, T.lines = pre ++ k.line :: post ∧ Eligible main sub pre k.line := by
  obtain ⟨s, hs, hk, rfl, rfl⟩ := h
  rw [← T.plain_sections, List.mem_map] at hs
  obtain ⟨s, hs, rfl⟩ := hs
  rw [← s.body_keys, keysOf, List.mem_filterMap] at hk
  obtain ⟨l, hl, hlk⟩ := hk
  obtain rfl : l = .key k := by
    cases l with
    | comment c => cases hlk
    | key k' => rw [Option.some.inj hlk]
  obtain ⟨S₁, S₂, hsplit⟩ := List.append_of_mem hs
  obtain ⟨b₁, b₂, hbody⟩ := List.append_of_mem hl
  obtain ⟨pre, post, hlines⟩ := lines_section hsplit
  refine ⟨pre ++ lineOf s.plain.content s.plain.eol :: b₁.map (·.line), b₂.map (·.line) ++ post,
    ?_, ⟨lineOf s.plain.content s.plain.eol, by simp, ?_⟩, ?_⟩
  · rw [hlines, hbody]
    simp [BodyLine.line]
  · exact (List.prefix_append (bracketed s.plain.name) _).isInfix
  · rw [field1_keyLine]
    exact ⟨k.lead, k.gap, rfl⟩

theorem word_isName (w : Word) : IsName w := by
  obtain ⟨w, -, hshort, hchars⟩ := w
  exact ⟨hshort, fun h0 => absurd (hchars 0 h0) (by decide)⟩

/-- What the C reader returns for two words: the value of their key line, or -1. -/
theorem scriptFetch_words (T : CommentedScript) {main sub : List UInt8} (hmain : IsName main)
    (hsub : IsName sub) {count : Nat} (hc : 1 ≤ count) :
    (∀ k, T.Has main sub k → ∃ bytes, scriptFetch ⟨encode T.plain.denote, T.plain.denote.length⟩
      main sub count = some ⟨0, bytes⟩ ∧ k.value.Yields count bytes) ∧
    ((∀ k, ¬ T.Has main sub k) → ∃ bytes,
      scriptFetch ⟨encode T.plain.denote, T.plain.denote.length⟩ main sub count =
        some ⟨-1, bytes⟩) := by
  have hfit : Fits T.plain.denote := T.plain.fits
  refine ⟨?_, ?_⟩
  · rintro k ⟨s, hs, hk, rfl, rfl⟩
    refine ⟨k.value.value.fetched count, ?_, fetched_yields k.value count⟩
    rw [scriptFetch_encode hfit _ _ hc]
    unfold ScriptText.denote
    rw [lookup_mem T.plain.distinct hs hk]
  · intro hnot
    refine ⟨fillValue [] count, ?_⟩
    rw [scriptFetch_encode hfit _ _ hc]
    unfold ScriptText.denote
    rw [lookup_none hmain hsub fun s hs hname k hk hkey => hnot k ⟨s, hs, hk, hname, hkey⟩]

/-- The shell agrees when it prints the value of the key line of the two words, or an empty
line where there is none. -/
theorem agrees_iff (expanded : List UInt8 → List UInt8) (T : ShellScript) (next : UInt8)
    (rest : List UInt8) (main sub : Word) :
    Agrees expanded T next rest main sub ↔
      (∃ k, T.Has main sub k ∧ Spells (scriptFetchSh expanded T.render main sub) k.value) ∨
      (∀ k, ¬ T.Has main sub k) ∧ scriptFetchSh expanded T.render main sub = [chLf] := by
  have hcompiles := compiles_commented T.toCommentedScript next rest
  have hinit := initScript_encode (Fits.sections T.plain.fits)
  have hc := fun (count : Nat) (h : 1 ≤ count) =>
    scriptFetch_words T.toCommentedScript (word_isName main) (word_isName sub) h
  have hne : (-1 : Int) ≠ 0 := by decide
  refine ⟨?_, ?_⟩
  · rintro ⟨img, attached, himg, hattached, hall⟩
    obtain rfl := compiles_unique himg hcompiles
    obtain rfl := Option.some.inj (hattached.symm.trans hinit)
    obtain ⟨f, hf, hzero, hnonzero⟩ := hall 1 (Nat.le_refl 1)
    by_cases hhas : ∃ k, T.Has main sub k
    · obtain ⟨k, hk⟩ := hhas
      obtain ⟨bytes, hbytes, -⟩ := (hc 1 (Nat.le_refl 1)).1 k hk
      obtain rfl := Option.some.inj (hf.symm.trans hbytes)
      obtain ⟨k, hk, -, hspells⟩ := hzero rfl
      exact .inl ⟨k, hk, hspells⟩
    · have hnot : ∀ k, ¬ T.Has main sub k := fun k hk => hhas ⟨k, hk⟩
      obtain ⟨bytes, hbytes⟩ := (hc 1 (Nat.le_refl 1)).2 hnot
      obtain rfl := Option.some.inj (hf.symm.trans hbytes)
      exact .inr ⟨hnot, hnonzero hne⟩
  · intro h
    refine ⟨_, _, hcompiles, hinit, fun count hcount => ?_⟩
    rcases h with ⟨k, hk, hspells⟩ | ⟨hnot, hempty⟩
    · obtain ⟨bytes, hbytes, hyields⟩ := (hc count hcount).1 k hk
      exact ⟨_, hbytes, fun _ => ⟨k, hk, hyields, hspells⟩, fun h0 => absurd rfl h0⟩
    · obtain ⟨bytes, hbytes⟩ := (hc count hcount).2 hnot
      exact ⟨_, hbytes, fun h0 => absurd h0 hne, fun _ => hempty⟩

/-- The shell reader agrees with the C reader just when the line it picks is the key's own and
the value survives, or is another line that happens to spell the value; and, where the C reader
finds nothing, when no line is picked, or one that reads as nothing. -/
theorem shell_agrees_iff (expanded : List UInt8 → List UInt8) (T : ShellScript) (next : UInt8)
    (rest : List UInt8) (main sub : Word) :
    Agrees expanded T next rest main sub ↔
      (∃ k l, T.Has main sub k ∧ Picks main sub T.lines l ∧
        (l = k.line ∧ k.Clean expanded ∨ l ≠ k.line ∧ Spells (printedAs expanded l) k.value)) ∨
      (∀ k, ¬ T.Has main sub k) ∧
        ∀ l, Picks main sub T.lines l → printedAs expanded l = [chLf] := by
  have hown : ∀ {k}, T.Has main sub k →
      (Spells (printedAs expanded k.line) k.value ↔ k.Clean expanded) := by
    rintro k ⟨s, hs, hk, -, -⟩
    exact spells_keyLine expanded (T.keys s hs k hk)
  rw [agrees_iff]
  refine ⟨?_, ?_⟩
  · rintro (⟨k, hk, hspells⟩ | ⟨hnot, hempty⟩)
    · obtain ⟨pre, post, hlines, helig⟩ := has_eligible hk
      obtain ⟨l, hl⟩ := exists_picks hlines helig
      rw [scriptFetchSh_picks hl] at hspells
      refine .inl ⟨k, l, hk, hl, ?_⟩
      by_cases hline : l = k.line
      · exact .inl ⟨hline, (hown hk).mp (hline ▸ hspells)⟩
      · exact .inr ⟨hline, hspells⟩
    · exact .inr ⟨hnot, fun l hl => scriptFetchSh_picks hl ▸ hempty⟩
  · rintro (⟨k, l, hk, hl, hreads⟩ | ⟨hnot, hempty⟩)
    · refine .inl ⟨k, hk, ?_⟩
      rw [scriptFetchSh_picks hl]
      rcases hreads with ⟨rfl, hclean⟩ | ⟨-, hspells⟩
      · exact (hown hk).mpr hclean
      · exact hspells
    · refine .inr ⟨hnot, ?_⟩
      by_cases hpicks : ∃ l, Picks main sub T.lines l
      · obtain ⟨l, hl⟩ := hpicks
        rw [scriptFetchSh_picks hl]
        exact hempty l hl
      · exact scriptFetchSh_none fun l hl => hpicks ⟨l, hl⟩

/-- Two key lines of the same names are one. -/
theorem has_unique {T : CommentedScript} {main sub : List UInt8} {k k' : KeyLine}
    (h : T.Has main sub k) (h' : T.Has main sub k') : k = k' := by
  obtain ⟨s, hs, hk, hname, hkey⟩ := h
  obtain ⟨s', hs', hk', hname', hkey'⟩ := h'
  obtain rfl : s = s' :=
    List.inj_on_of_nodup_map T.plain.distinct hs hs' (hname.trans hname'.symm)
  exact List.inj_on_of_nodup_map s.distinct hk hk' (hkey.trans hkey'.symm)

/-- What is behind the picked line does not matter. -/
theorem picks_append {main sub l : List UInt8} {lines : List (List UInt8)}
    (h : Picks main sub lines l) (more : List (List UInt8)) :
    Picks main sub (lines ++ more) l := by
  obtain ⟨pre, post, rfl, helig, hfirst⟩ := h
  exact ⟨pre, post ++ more, by rw [List.append_assoc, List.cons_append], helig, hfirst⟩

/-- The shell finds what the C reader finds: the key's own line, with a value that survives, or
no line at all. -/
def FindsOwn (expanded : List UInt8 → List UInt8) (T : CommentedScript) (main sub : List UInt8) :
    Prop :=
  (∃ k, T.Has main sub k ∧ Picks main sub T.lines k.line ∧ k.Clean expanded) ∨
    (∀ k, ¬ T.Has main sub k) ∧ ∀ l, ¬ Picks main sub T.lines l

/-- **Where the shell finds the key's own line, it agrees with the C reader just when the value
survives; where neither finds a line, it agrees.** From another line it prints what stands there,
whatever the value of the key: of the scripts with the same lines down to the picked one it
agrees, if at all, with those of one value. -/
theorem shell_agrees_own (expanded : List UInt8 → List UInt8) (T : ShellScript) (next : UInt8)
    (rest : List UInt8) (main sub : Word) :
    (FindsOwn expanded T.toCommentedScript main sub → Agrees expanded T next rest main sub) ∧
    (∀ k, T.Has main sub k → Picks main sub T.lines k.line →
      Agrees expanded T next rest main sub → k.Clean expanded) ∧
    (∀ lines post l, T.lines = lines ++ post → Picks main sub lines l →
      ∀ (T' : ShellScript) next' rest' post' k k', T'.lines = lines ++ post' →
        T.Has main sub k → T'.Has main sub k' → Agrees expanded T next rest main sub →
        Agrees expanded T' next' rest' main sub →
        ∃ printed, Spells printed k.value ∧ Spells printed k'.value) := by
  -- an agreement about a key that is there is one about the picked line
  have hspells : ∀ {T : ShellScript} {next rest k l}, T.Has main sub k →
      Picks main sub T.lines l → Agrees expanded T next rest main sub →
      Spells (printedAs expanded l) k.value := by
    intro T next rest k l hk hl h
    rcases (agrees_iff expanded T next rest main sub).mp h with ⟨k', hk', hspells⟩ | ⟨hnot, -⟩
    · rwa [has_unique hk hk', ← scriptFetchSh_picks hl]
    · exact absurd hk (hnot k)
  refine ⟨?_, fun k hk hl h => ?_, ?_⟩
  · rw [shell_agrees_iff]
    rintro (⟨k, hk, hl, hclean⟩ | ⟨hnot, hnone⟩)
    · exact .inl ⟨k, k.line, hk, hl, .inl ⟨rfl, hclean⟩⟩
    · exact .inr ⟨hnot, fun l hl => absurd hl (hnone l)⟩
  · have hown := hspells hk hl h
    obtain ⟨s, hs, hks, -, -⟩ := hk
    exact (spells_keyLine expanded (T.keys s hs k hks)).mp hown
  · intro lines post l hlines hl T' next' rest' post' k k' hlines' hk hk' h h'
    have hpicks : Picks main sub T.lines l := hlines ▸ picks_append hl post
    have hpicks' : Picks main sub T'.lines l := hlines' ▸ picks_append hl post'
    exact ⟨printedAs expanded l, hspells hk hpicks h, hspells hk' hpicks' h'⟩

/-- A key line without blanks around its parts. -/
def plainLine (key : List UInt8) (value : Written) (short : key.length ≤ 31) (nul : 0 ∉ key)
    (eq : chEq ∉ key) (noEol : NoEol key)
    (head : ∃ c, key.head? = some c ∧ c ≠ chSemi ∧ c ≠ chOpen ∧ isBlank c = false)
    (last : ∀ c, key.getLast? = some c → isBlank c = false) : KeyLine where
  lead := []
  key := key
  gap := []
  gap' := []
  value := value
  trail := []
  eol := [chLf]
  lead_blank := by simp
  gap_blank := by simp
  gap'_blank := by simp
  trail_blank := by simp
  key_short := short
  key_nul := nul
  key_eq := eq
  key_noEol := noEol
  key_head := head
  key_last := last
  ended := .inl rfl
  short := by
    have := (written_plain value).short
    simp only [List.nil_append, List.append_nil, List.length_append, List.length_cons]
    omega

set_option maxRecDepth 4096 in
/-- A script of one section with two keys, of which the shell prints one without its blank and
finds the first in place of the second. -/
theorem shell_apart : ∃ T : ShellScript,
    T.render = ascii "[mmc]\ndisplay_name=\"SD Card\"\nname=3\n" ∧
      ∀ expanded next rest,
        ¬ Agrees expanded T next rest (ascii "mmc") (ascii "display_name") ∧
          ¬ Agrees expanded T next rest (ascii "mmc") (ascii "name") := by
  let k₁ := plainLine (ascii "display_name") (.quoted (ascii "SD Card") (by decide) (by decide)
    (by decide) (by decide)) (by decide) (by decide) (by decide) (by decide)
    ⟨0x64, by decide⟩ (by decide)
  let k₂ := plainLine (ascii "name") (.int false [0x33] (by decide) (by decide) (by decide)
    (by decide) (by decide)) (by decide) (by decide) (by decide) (by decide)
    ⟨0x6e, by decide⟩ (by decide)
  let s : SectionText := ⟨ascii "mmc", [chLf], [k₁, k₂], by decide, by decide, by decide,
    by decide, by decide, .inl rfl, by decide⟩
  let T : ScriptText := ⟨[s], by simp, ⟨by decide, by decide, by decide⟩, by simp⟩
  let S : ShellScript := ⟨T.commented, by decide, by decide, by decide, by decide⟩
  have hrender : S.render = ascii "[mmc]\ndisplay_name=\"SD Card\"\nname=3\n" := by rfl
  have hitem : ∀ sub ∈ [ascii "display_name", ascii "name"],
      shRetval ((awkItem (ascii "mmc") sub false (awkRecords
        (ascii "[mmc]\ndisplay_name=\"SD Card\"\nname=3\n"))).getD []) = ascii "SDCard" := by
    decide +kernel
  have hprinted : ∀ expanded, ∀ sub ∈ [ascii "display_name", ascii "name"],
      scriptFetchSh expanded S.render (ascii "mmc") sub = ascii "SDCard\n" := by
    intro expanded sub hsub
    rw [scriptFetchSh, hrender, hitem sub hsub]
    rfl
  have hkeys : ∀ {sub k}, S.Has (ascii "mmc") sub k → k = k₁ ∧ sub = ascii "display_name" ∨
      k = k₂ ∧ sub = ascii "name" := by
    rintro sub k ⟨s', hs', hk, -, rfl⟩
    obtain rfl : s' = s := List.mem_singleton.mp hs'
    rcases List.mem_cons.mp hk with rfl | hk
    · exact .inl ⟨rfl, rfl⟩
    · obtain rfl := List.mem_singleton.mp hk
      exact .inr ⟨rfl, rfl⟩
  refine ⟨S, hrender, fun expanded next rest => ⟨fun h => ?_, fun h => ?_⟩⟩
  · rcases (agrees_iff expanded S next rest ⟨ascii "mmc", by decide⟩
      ⟨ascii "display_name", by decide⟩).mp h with ⟨k, hk, hspells⟩ | ⟨-, hempty⟩
    · rw [hprinted expanded _ (by simp)] at hspells
      rcases hkeys hk with ⟨rfl, -⟩ | ⟨-, hname⟩
      · have hsame : ascii "SDCard\n" = ascii "SD Card" ++ [chLf] := hspells
        exact absurd hsame (by decide)
      · exact absurd hname (by decide)
    · rw [hprinted expanded _ (by simp)] at hempty
      exact absurd hempty (by decide)
  · rcases (agrees_iff expanded S next rest ⟨ascii "mmc", by decide⟩
      ⟨ascii "name", by decide⟩).mp h with ⟨k, hk, hspells⟩ | ⟨-, hempty⟩
    · rw [hprinted expanded _ (by simp)] at hspells
      rcases hkeys hk with ⟨-, hname⟩ | ⟨rfl, -⟩
      · exact absurd hname (by decide)
      · -- neither a sign nor a digit stands in front
        obtain ⟨neg, ds, hne, hdigits, heq, -⟩ := hspells
        obtain ⟨d, ds, rfl⟩ := List.exists_cons_of_ne_nil hne
        cases neg with
        | false =>
          obtain rfl : (0x53 : UInt8) = d := (List.cons.inj heq).1
          exact absurd (hdigits 0x53 (by simp)) (by decide)
        | true => exact absurd (List.cons.inj heq).1 (by decide)
    · rw [hprinted expanded _ (by simp)] at hempty
      exact absurd hempty (by decide)

end Lichee.Script

import Lichee.Script.Text

/- The line loop over the text of a script, comment lines and all. After each line the tables
   hold what the lines so far denote: a comment line leaves them as they are, a section line
   adds a section, a key line a record (`step_commentLine`, `step_sectionLine`,
   `step_keyLine`); so the image of a script is that of the script without its comments
   (`compiles_commented`). -/
namespace Lichee.Script
open Base

/-! ## One line -/

/-- `__getline` at a line of a text: its length with its end, by its first byte. -/
theorem getline_text {c eol X : List UInt8} (hne : c ≠ []) (hc : NoEol c) (he : LineEnd eol)
    (hk : c.length ≤ 500) (hX : X ≠ []) (n : Nat) :
    ∃ M, getline (c ++ (eol ++ X)) (c.length + eol.length + n : Nat) =
      .ok ⟨c.length + eol.length, lineFlag (c.headD 0), M⟩ := by
  have hlt : c.length < LINE_MAX_LEN := by unfold LINE_MAX_LEN; omega
  rcases he with rfl | rfl
  · obtain ⟨d, M, rfl⟩ := List.exists_cons_of_ne_nil hX
    refine ⟨M, ?_⟩
    have hend : lineEnd c.length chLf d = c.length + [chLf].length := by
      simp [lineEnd, show chLf ≠ chCr by decide]
    rw [← hend]
    exact getline_line hne hc hlt rfl (by rw [hend, List.length_singleton]; omega)
  · refine ⟨X, ?_⟩
    have hend : lineEnd c.length chCr chLf = c.length + [chCr, chLf].length := by simp [lineEnd]
    rw [← hend]
    exact getline_line hne hc hlt rfl (by rw [hend, List.length_cons]; omega)

/-- A line that is stored leaves the loop at the text behind it. -/
theorem step_text {c eol X : List UInt8} {t t' : Tables} {n : Nat} {line : Line}
    (hl : getline (c ++ (eol ++ X)) (c.length + eol.length + n : Nat) = .ok line)
    (hlen : line.lineLen = c.length + eol.length)
    (hs : Stepped ⟨c ++ (eol ++ X), (c.length + eol.length + n : Nat), t⟩ line
      ⟨(c ++ (eol ++ X)).drop line.lineLen,
        ((c.length + eol.length + n : Nat) : Int) - line.lineLen, t'⟩) :
    step ⟨c ++ (eol ++ X), (c.length + eol.length + n : Nat), t⟩ = .ok ⟨X, n, t'⟩ := by
  rw [step_of_stepped hl hs, hlen, ← List.append_assoc, ← List.length_append, List.drop_left]
  congr 2
  push_cast; omega

/-- A comment line leaves the tables as they are. -/
theorem step_commentLine (c : CommentLine) (t : Tables) {X : List UInt8} (hX : X ≠ [])
    (n : Nat) :
    step ⟨c.content ++ (c.eol ++ X), (c.content.length + c.eol.length + n : Nat), t⟩ =
      .ok ⟨X, n, t⟩ := by
  have hno : NoEol c.content := noEol_cons.mpr ⟨by decide, c.text_noEol⟩
  have hlen : c.content.length ≤ 500 := by
    have := c.short
    simp only [CommentLine.content, List.length_cons]; omega
  obtain ⟨M, hl⟩ := getline_text (by simp [CommentLine.content]) hno c.ended hlen hX n
  exact step_text hl rfl (.inert (.inl rfl))

theorem content_noEol (k : KeyLine) : NoEol k.content := by
  unfold KeyLine.content
  rw [noEol_append, noEol_append, noEol_append, noEol_cons, noEol_append, noEol_append]
  exact ⟨noEol_of_blank k.lead_blank, k.key_noEol, noEol_of_blank k.gap_blank, by decide,
    noEol_of_blank k.gap'_blank, (written_plain k.value).noEol, noEol_of_blank k.trail_blank⟩

/-- A key line is told by the blank or the key it starts with. -/
theorem content_flag (k : KeyLine) : lineFlag (k.content.headD 0) = .subkey := by
  obtain ⟨x, hx, hsemi, hopen, -⟩ := k.key_head
  obtain ⟨key', hkey⟩ := List.head?_eq_some_iff.mp hx
  have hxe : isEol x = false := k.key_noEol x (by rw [hkey]; simp)
  unfold KeyLine.content
  cases hlead : k.lead with
  | nil =>
    rw [hkey]
    simp [lineFlag, hsemi, hopen, hxe]
  | cons c l =>
    have hc := k.lead_blank c (by rw [hlead]; simp)
    rcases (isBlank_iff c).mp hc with rfl | rfl <;> rfl

/-- What `__get_str2int` makes of the value is the record of the line. -/
theorem recordOf_written (k : KeyLine) {r : Str2int} (h : r.Shape)
    (htype : r.type = k.value.value.type) (hdata : r.data = k.value.value.data) :
    recordOf k.key r h k.key_short = k.record := by
  have hvalue : r.value h = k.value.value := by
    cases hv : k.value.value
    simp only [Str2int.value, Value.mk.injEq]
    rw [hv] at htype hdata
    exact ⟨htype, hdata⟩
  simp only [recordOf, KeyLine.record, hvalue, cstr_self k.key_nul]

/-- A key line in a section with room for its record. -/
theorem step_keyLine (k : KeyLine) {t : Tables} {S : List Section} {s : Section}
    (h : Holds t (S ++ [s])) (hkeys : (records (S ++ [s.push k.record])).length ≤ 13107)
    (hvalues : (valueBytes (records (S ++ [s.push k.record]))).length ≤ AREA_SIZE)
    {X : List UInt8} (hX : X ≠ []) (n : Nat) :
    ∃ t', step ⟨k.content ++ (k.eol ++ X), (k.content.length + k.eol.length + n : Nat), t⟩ =
      .ok ⟨X, n, t'⟩ ∧ Holds t' (S ++ [s.push k.record]) := by
  have hne : k.content ≠ [] := by simp [KeyLine.content]
  obtain ⟨M, hl⟩ := getline_text hne (content_noEol k) k.ended k.short hX n
  obtain ⟨r, hr, htype, hdata⟩ := getStr2int_written k.value
  -- the room for the record, from the sections that are to hold it
  have hkl : t.keyData.length = (records (S ++ [s])).length * 40 := by
    rw [h.keyData, keyBytes_length]
  rw [records_push, List.length_append, List.length_singleton] at hkeys
  have hvl : t.valueData.length + r.data.length ≤ AREA_SIZE := by
    rw [records_push, valueBytes_append, List.length_append] at hvalues
    rw [h.valueData, hdata]
    simpa [valueBytes, KeyLine.record] using hvalues
  have hlast : t.items.getLast? = some
      ⟨s.name, s.records.length, 10 * (records S).length⟩ := by
    rw [h.items, itemList_concat, List.getLast?_concat]
  have hstore := (storeSubkey_some_eq_ok (t := t) hr k.key_short).mpr
    ⟨by unfold AREA_SIZE; omega, hvl, _, hlast, rfl⟩
  refine ⟨_, step_text hl rfl (.subkey (content_flag k) (getKeyValue_line k X) hstore), ?_⟩
  have hholds := storeSubkey_holds h hr k.key_short hstore
  rwa [recordOf_written k _ htype hdata] at hholds

/-- A section line with room for its item. -/
theorem step_sectionLine (s : SectionText) {t : Tables} {S : List Section} (h : Holds t S)
    (hroom : S.length < 128) {X : List UInt8} (hX : X ≠ []) (n : Nat) :
    ∃ t', step ⟨s.content ++ (s.eol ++ X), (s.content.length + s.eol.length + n : Nat), t⟩ =
      .ok ⟨X, n, t'⟩ ∧
      Holds t' (S ++ [newSection s.name s.name_short (head_ne_nul s.name_ne s.name_nul)]) := by
  have hno : NoEol s.content := by
    unfold SectionText.content
    rw [noEol_cons, noEol_append]
    exact ⟨by decide, s.name_noEol, by decide +kernel⟩
  have hlen : s.content.length ≤ 500 := by
    have := s.name_short
    simp only [SectionText.content, List.length_cons, List.length_append, List.length_nil]; omega
  obtain ⟨M, hl⟩ := getline_text (by simp [SectionText.content]) hno s.ended hlen hX n
  have hname : fillMainkey (s.content ++ (s.eol ++ X)) = .ok (some s.name) := by
    have hdrop : (s.content ++ (s.eol ++ X)).drop 1 = s.name ++ chClose :: (s.eol ++ X) := by
      simp [SectionText.content]
    unfold fillMainkey
    rw [hdrop, takeName_close s.name_close (by have := s.name_short; omega), ok_bind,
      if_neg (head_ne_nul s.name_ne s.name_nul)]
  have hitems : t.items.length < ITEM_MAX_COUNT := by
    rw [h.items, itemList_length]; exact hroom
  exact ⟨_, step_text hl rfl (.mainkey rfl hitems hname),
    storeMainkey_holds h s.name_short (head_ne_nul s.name_ne s.name_nul)⟩

/-! ## The run over a script -/

/-- A line in front of a text the loop goes through. -/
theorem reach_line {content eol X mem : List UInt8} {len n : Nat} {t t' : Tables} {s : State}
    (hcontent : 0 < content.length) (hmem : mem = content ++ (eol ++ X))
    (hlen : len = content.length + eol.length + n)
    (hstep : step ⟨content ++ (eol ++ X), (content.length + eol.length + n : Nat), t⟩ =
      .ok ⟨X, n, t'⟩)
    (hreach : Reach more step ⟨X, n, t'⟩ s) : Reach more step ⟨mem, (len : Nat), t⟩ s := by
  rw [hmem, hlen]
  apply hreach.head _ hstep
  simp only [more, bne_iff_ne, ne_eq]
  omega

/-- A section with more records. -/
def Section.extend (s : Section) (rs : List Record) : Section :=
  { s with records := s.records ++ rs }

theorem extend_cons (s : Section) (r : Record) (rs : List Record) :
    s.extend (r :: rs) = (s.push r).extend rs := by
  simp [Section.extend, Section.push]

theorem records_extend (S : List Section) (s : Section) (rs : List Record) :
    records (S ++ [s.extend rs]) = records (S ++ [s]) ++ rs := by
  simp [records, Section.extend]

/-- The loop over the lines of a section. -/
theorem reach_body {X : List UInt8} (hX : X ≠ []) (n : Nat) {S : List Section}
    (body : List BodyLine) : ∀ {t : Tables} {s : Section}, Holds t (S ++ [s]) →
    Fits (S ++ [s.extend ((keysOf body).map (·.record))]) →
    ∃ t', Reach more step
      ⟨body.flatMap (·.render) ++ X, ((body.flatMap (·.render)).length + n : Nat), t⟩
      ⟨X, n, t'⟩ ∧ Holds t' (S ++ [s.extend ((keysOf body).map (·.record))]) := by
  induction body with
  | nil =>
    intro t s h _
    exact ⟨t, by simpa using .refl, by simpa [Section.extend, keysOf] using h⟩
  | cons l body ih =>
    intro t s h hfit
    have hrest : (body.flatMap (·.render) ++ X) ≠ [] := by simp [hX]
    cases l with
    | comment c =>
      obtain ⟨t', hreach, h'⟩ := ih h hfit
      have hstep := step_commentLine c t hrest ((body.flatMap (·.render)).length + n)
      refine ⟨t', reach_line (by simp [CommentLine.content]) ?_ ?_ hstep hreach, h'⟩
      · simp only [List.flatMap_cons, BodyLine.render, CommentLine.render, List.append_assoc]
      · simp only [List.flatMap_cons, BodyLine.render, CommentLine.render, List.length_append]
        omega
    | key k =>
      have hkeysOf : keysOf (.key k :: body) = k :: keysOf body := rfl
      rw [hkeysOf, List.map_cons, extend_cons] at hfit ⊢
      have hpre := records_extend S (s.push k.record) ((keysOf body).map (·.record))
      have hkeys : (records (S ++ [s.push k.record])).length ≤ 13107 := by
        have := hfit.keys
        rw [hpre, List.length_append] at this; omega
      have hvalues : (valueBytes (records (S ++ [s.push k.record]))).length ≤ AREA_SIZE := by
        have := hfit.values
        rw [hpre, valueBytes_append, List.length_append] at this; omega
      -- the key line, then the lines of the section behind it
      obtain ⟨t₁, hstep, h₁⟩ := step_keyLine k h hkeys hvalues hrest
        ((body.flatMap (·.render)).length + n)
      obtain ⟨t', hreach, h'⟩ := ih h₁ hfit
      refine ⟨t', reach_line (by simp [KeyLine.content]) ?_ ?_ hstep hreach, h'⟩
      · simp only [List.flatMap_cons, BodyLine.render, KeyLine.render, List.append_assoc]
      · simp only [List.flatMap_cons, BodyLine.render, KeyLine.render, List.length_append]
        omega

theorem records_concat (S : List Section) (s : Section) (S' : List Section) :
    records (S ++ s :: S') = records (S ++ [s]) ++ records S' := by
  simp [records]

/-- The loop over the sections of a script. -/
theorem reach_sections {X : List UInt8} (hX : X ≠ []) (n : Nat) (T : List CommentedSection) :
    ∀ {t : Tables} {S : List Section}, Holds t S → Fits (S ++ T.map (·.plain.denote)) →
    ∃ t', Reach more step
      ⟨T.flatMap (·.render) ++ X, ((T.flatMap (·.render)).length + n : Nat), t⟩ ⟨X, n, t'⟩ ∧
      Holds t' (S ++ T.map (·.plain.denote)) := by
  induction T with
  | nil =>
    intro t S h _
    exact ⟨t, by simpa using .refl, by simpa using h⟩
  | cons s T ih =>
    intro t S h hfit
    have hroom : S.length < 128 := by
      have := hfit.sections
      simp only [List.length_append, List.map_cons, List.length_cons] at this; omega
    have hfit₁ : Fits (S ++ [s.plain.denote]) := by
      rw [List.map_cons] at hfit
      have hk := hfit.keys
      have hv := hfit.values
      rw [records_concat, List.length_append] at hk
      rw [records_concat, valueBytes_append, List.length_append] at hv
      exact ⟨by simp only [List.length_append, List.length_singleton]; omega, by omega, by omega⟩
    -- the section line, the lines of its section, and the sections behind them
    obtain ⟨t₁, hstep, h₁⟩ := step_sectionLine s.plain h hroom
      (X := s.body.flatMap (·.render) ++ (T.flatMap (·.render) ++ X)) (by simp [hX])
      ((s.body.flatMap (·.render)).length + ((T.flatMap (·.render)).length + n))
    have hdenote : (newSection s.plain.name s.plain.name_short
        (head_ne_nul s.plain.name_ne s.plain.name_nul)).extend
          ((keysOf s.body).map (·.record)) = s.plain.denote := by
      rw [s.body_keys]
      rfl
    obtain ⟨t₂, hbody, h₂⟩ := reach_body (X := T.flatMap (·.render) ++ X) (by simp [hX])
      ((T.flatMap (·.render)).length + n) s.body h₁ (by rw [hdenote]; exact hfit₁)
    rw [hdenote] at h₂
    obtain ⟨t', hrest, h'⟩ := ih h₂ (by simpa using hfit)
    refine ⟨t', reach_line (by simp [SectionText.content]) ?_ ?_ hstep (hbody.trans hrest),
      by simpa using h'⟩
    · simp only [List.flatMap_cons, CommentedSection.render, List.append_assoc]
    · simp only [List.flatMap_cons, CommentedSection.render, List.length_append]
      omega

/-- The loop over the comment lines before the first section. -/
theorem reach_preamble {X : List UInt8} (hX : X ≠ []) (n : Nat) (t : Tables)
    (cs : List CommentLine) :
    Reach more step
      ⟨cs.flatMap (·.render) ++ X, ((cs.flatMap (·.render)).length + n : Nat), t⟩ ⟨X, n, t⟩ := by
  induction cs with
  | nil => simpa using .refl
  | cons c cs ih =>
    have hrest : (cs.flatMap (·.render) ++ X) ≠ [] := by simp [hX]
    have hstep := step_commentLine c t hrest ((cs.flatMap (·.render)).length + n)
    refine reach_line (by simp [CommentLine.content]) ?_ ?_ hstep ih
    · simp only [List.flatMap_cons, CommentLine.render, List.append_assoc]
    · simp only [List.flatMap_cons, CommentLine.render, List.length_append]
      omega

/-- **A script with comment lines compiles to the image of what it denotes without them**,
whatever follows it in memory. -/
theorem compiles_commented (T : CommentedScript) (next : UInt8) (rest : List UInt8) :
    Compiles ⟨T.render, next, rest⟩ (encode T.plain.denote) := by
  have hsections : T.sections.map (·.plain.denote) = T.plain.denote := by
    rw [ScriptText.denote, ← T.plain_sections, List.map_map]
    rfl
  have hpre := reach_preamble (X := T.sections.flatMap (·.render) ++ next :: rest) (by simp)
    ((T.sections.flatMap (·.render)).length + 0) initTables T.preamble
  obtain ⟨t, hreach, h⟩ := reach_sections (X := next :: rest) (by simp) 0 T.sections
    holds_init (by rw [hsections]; exact T.plain.fits)
  obtain ⟨n, hn⟩ := whileLoop_of_reach (hpre.trans hreach) (whileLoop_exit (by simp [more]) 0)
  refine ⟨n, ?_⟩
  have hne : T.plain.denote ≠ [] := by
    have := T.plain.ne
    simpa [ScriptText.denote] using this
  rw [hsections, List.nil_append] at h
  have hfin := finish_holds h hne (by
    have := T.plain.fits.keys
    unfold ScriptText.denote AREA_SIZE; omega)
  rw [parseScript, Option.map_eq_some_iff]
  exact ⟨_, by simpa [initState, ScriptBuf.mem, CommentedScript.render] using hn, hfin⟩

end Lichee.Script

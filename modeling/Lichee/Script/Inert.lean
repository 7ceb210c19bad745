import Lichee.Script.LineLoop

/- Lines that change nothing: what inserting an empty line, a comment or a line of blanks
   does to the image of a script.

   The text before the insertion is read line by line and leaves tables that do not depend
   on what follows, as long as no line of it reads on behind it (`Before`). An empty line or
   a comment then hands over to the text behind it (`inert_outcome`). A line of blanks does
   not: `continue` skips the advance of `src`, so the loop stays on the line and only the
   counter goes down by its length, until it is used up or has become negative
   (`stuck_outcome`). `insert_iff` puts the two together. -/
namespace Lichee.Script
open Base

/-- What the compiler makes of the rest of a script: the image, or the error. -/
def Outcome (s : State) (r : Except Stop (List UInt8)) : Prop :=
  ∃ r', Ends more step s r' ∧ (r' >>= fun s => finish s.tables) = r

/-- A section line or key line at the front of `p` is read inside `p`. -/
def LineInside (p : List UInt8) : Prop :=
  (lineFlag (p.headD 0) = .mainkey → ∃ r, fillMainkey p = .ok r) ∧
  (lineFlag (p.headD 0) = .subkey → ∃ kv, getKeyValue p = .ok (some kv))

/-- Lines, each with its end, none of which reads on behind the last or is left blank. -/
inductive Before : List UInt8 → Prop
  | nil : Before []
  | line {c l : List UInt8} {e : UInt8} (hc : NoEol c) (he : isEol e = true)
      (hin : c ≠ [] → LineInside (c ++ e :: l)) (hl : Before l) : Before (c ++ e :: l)

/-- Empty lines and comments, each with its end. -/
inductive InertText : List UInt8 → Prop
  | nil : InertText []
  | line {c l : List UInt8} {e : UInt8} (hc : NoEol c) (hk : c.length < LINE_MAX_LEN)
      (hi : c = [] ∨ c.head? = some chSemi) (he : isEol e = true) (hl : InertText l) :
      InertText (c ++ e :: l)

/-- Among the `k` bytes of the text left and the byte behind it, not all are line feeds. A
line feed takes a second one with it, so a run of them must end somewhere. -/
def TailOk (k : Nat) (X : List UInt8) : Prop := ∃ x ∈ X.take (k + 1), x ≠ chLf

/-- The outcome of a text whose lines have had the effect `eff`, with `X` behind it. -/
def Follows (eff : Except Stop Tables) (X : List UInt8) (k : Nat)
    (r : Except Stop (List UInt8)) : Prop :=
  match eff with
  | .error e => r = .error e
  | .ok t => Outcome ⟨X, k, t⟩ r

/-! ## Outcomes -/

theorem compiles_iff {b : ScriptBuf} {img : List UInt8} :
    Compiles b img ↔ Outcome (initState b) (.ok img) := by
  refine ⟨?_, ?_⟩
  · rintro ⟨n, hn⟩
    obtain ⟨r, hr, h⟩ := Option.map_eq_some_iff.mp hn
    exact ⟨r, ⟨n, hr⟩, h⟩
  · rintro ⟨r, ⟨n, hr⟩, h⟩
    exact ⟨n, Option.map_eq_some_iff.mpr ⟨r, hr, h⟩⟩

theorem outcome_exit {s : State} {r : Except Stop (List UInt8)} (h : s.restLen = 0) :
    Outcome s r ↔ finish s.tables = r := by
  have hm : more s = false := by simp [more, h]
  refine ⟨?_, ?_⟩
  · rintro ⟨r', hr', h'⟩
    rw [(ends_exit hm).mp hr'] at h'
    exact h'
  · intro h'
    exact ⟨.ok s, (ends_exit hm).mpr rfl, h'⟩

theorem outcome_error {s : State} {e : Stop} {r : Except Stop (List UInt8)}
    (hm : s.restLen ≠ 0) (h : step s = .error e) : Outcome s r ↔ r = .error e := by
  have hm' : more s = true := by simpa [more] using hm
  refine ⟨?_, ?_⟩
  · rintro ⟨r', hr', h'⟩
    rw [(ends_error hm' h).mp hr'] at h'
    exact h'.symm
  · rintro rfl
    exact ⟨.error e, (ends_error hm' h).mpr rfl, rfl⟩

theorem outcome_next {s s' : State} {r : Except Stop (List UInt8)} (hm : s.restLen ≠ 0)
    (h : step s = .ok s') : Outcome s r ↔ Outcome s' r := by
  have hm' : more s = true := by simpa [more] using hm
  simp only [Outcome, ends_next hm' h]

/-! ## Empty lines -/

theorem tailOk_ne_nil {k : Nat} {X : List UInt8} (h : TailOk k X) : X ≠ [] := by
  rintro rfl
  obtain ⟨x, hx, -⟩ := h
  simp at hx

theorem tailOk_append {k : Nat} {X : List UInt8} (l : List UInt8) (h : TailOk k X) :
    TailOk (l.length + k) (l ++ X) := by
  obtain ⟨x, hx, hne⟩ := h
  refine ⟨x, ?_, hne⟩
  rw [Nat.add_assoc, List.take_length_add_append]
  exact List.mem_append_right l hx

/-- Behind a line feed that is not all that is left, the rest of the text is in order too. -/
theorem tailOk_cons {k : Nat} {X : List UInt8} (h : TailOk k (chLf :: X)) :
    ∃ k', k = k' + 1 ∧ TailOk k' X := by
  obtain ⟨x, hx, hne⟩ := h
  rw [List.take_succ_cons] at hx
  rcases List.mem_cons.mp hx with rfl | hx
  · exact absurd rfl hne
  · cases k with
    | zero => simp at hx
    | succ k => exact ⟨k, rfl, x, hx, hne⟩

/-- An empty line changes nothing, whether or not it takes the next line feed with it. -/
theorem null_outcome {e : UInt8} (he : isEol e = true) (t : Tables)
    {r : Except Stop (List UInt8)} (k : Nat) (X : List UInt8) (h : TailOk k X) :
    Outcome ⟨e :: X, (k : Int) + 1, t⟩ r ↔ Outcome ⟨X, k, t⟩ r := by
  induction k using Nat.strongRecOn generalizing e X with
  | ind k ih =>
    obtain ⟨x, Z, rfl⟩ := List.exists_cons_of_ne_nil (tailOk_ne_nil h)
    have hget : getline (e :: x :: Z) ((k : Int) + 1) =
        .ok ⟨if x = chLf then 2 else 1, .null, Z⟩ := getline_eq_ok.mpr (.null he)
    have hstep := step_of_stepped (s := ⟨e :: x :: Z, (k : Int) + 1, t⟩) hget (.inert (.inr rfl))
    rw [outcome_next (by simp only; omega) hstep]
    by_cases hx : x = chLf
    · -- the pair is taken at once: what is left is what the second one leaves
      subst hx
      obtain ⟨k', rfl, h'⟩ := tailOk_cons h
      have hpair := ih k' (by omega) (e := chLf) (by decide) Z h'
      simp only [if_true, List.drop_succ_cons, List.drop_zero]
      push_cast
      rw [hpair]
      congr! 2; omega
    · simp only [if_neg hx, List.drop_succ_cons, List.drop_zero]
      congr! 2; push_cast; omega

/-! ## Lines -/

/-- A line of 512 bytes or more is refused. -/
theorem getline_long {c M : List UInt8} {len : Int} (hc : NoEol c) (hM : M ≠ [])
    (hk : LINE_MAX_LEN ≤ c.length) (hlen : (c.length : Int) < len) :
    ∃ y, getline (c ++ M) len = .ok ⟨0, .error, y⟩ := by
  obtain ⟨ch, c', rfl⟩ := List.exists_cons_of_length_pos (l := c)
    (by unfold LINE_MAX_LEN at hk; omega)
  obtain ⟨hch, hc'⟩ := noEol_cons.mp hc
  have hpos := List.length_pos_of_ne_nil hM
  rw [List.length_cons] at hk hlen
  have hlen' : (LINE_MAX_LEN : Int) ≤ len := by omega
  obtain ⟨y, hy⟩ := got_long (M := M) hch hc' hk (by rw [List.length_append]; omega) hlen'
  exact ⟨y, getline_eq_ok.mpr hy⟩

/-- Behind a line, the loop is at the text behind it, or one line feed further. -/
theorem after_line {c M : List UInt8} {e d : UInt8} (he : isEol e = true) (t : Tables)
    (K : Nat) (h : TailOk K (d :: M)) {r : Except Stop (List UInt8)} :
    Outcome ⟨(c ++ e :: d :: M).drop (lineEnd c.length e d),
      ((c.length + 1 + K : Nat) : Int) - lineEnd c.length e d, t⟩ r ↔
    Outcome ⟨d :: M, K, t⟩ r := by
  have h₁ : (c ++ e :: d :: M).drop (c.length + 1) = d :: M := by simp
  have h₂ : (c ++ e :: d :: M).drop (c.length + 2) = M := by simp
  unfold lineEnd
  split
  · next hcr =>
    obtain ⟨rfl, rfl⟩ := hcr
    obtain ⟨k', rfl, h'⟩ := tailOk_cons h
    have hnull := null_outcome (e := chLf) (by decide) t (r := r) k' M h'
    rw [h₂]
    push_cast
    rw [hnull]
    congr! 2; omega
  · rw [h₁]
    congr! 2; push_cast; omega

/-- Reading the text `p` up to the rest `l` of it does `eff` to the tables, whatever follows
the text. -/
def Effect (p l : List UInt8) (t : Tables) (eff : Except Stop Tables) : Prop :=
  ∀ k X, TailOk k X → ∀ r,
    Outcome ⟨p ++ X, (p.length + k : Nat), t⟩ r ↔ Follows eff (l ++ X) (l.length + k) r

/-- An empty line does nothing. -/
theorem null_effect {e : UInt8} (he : isEol e = true) (l : List UInt8) (t : Tables) :
    Effect (e :: l) l t (.ok t) := by
  intro k X hX r
  have h := null_outcome he t (r := r) (l.length + k) (l ++ X) (tailOk_append l hX)
  simpa [Follows, Int.add_comm, Int.add_left_comm, Int.add_assoc] using h

section Line
variable {c l : List UInt8} {e : UInt8} {t : Tables}

theorem line_length (k : Nat) : (c ++ e :: l).length + k = c.length + 1 + (l.length + k) := by
  simp only [List.length_append, List.length_cons]; omega

/-- A line too long stops the compiler. -/
theorem long_effect (hc : NoEol c) (hk : LINE_MAX_LEN ≤ c.length) :
    Effect (c ++ e :: l) l t (.error .format) := by
  intro k X _ r
  have hlt : (c.length : Int) < ((c ++ e :: l).length + k : Nat) := by rw [line_length]; omega
  obtain ⟨y, hy⟩ := getline_long (M := e :: (l ++ X)) hc (by simp) hk hlt
  rw [← List.cons_append, ← List.append_assoc] at hy
  apply outcome_error (by rw [line_length]; simp only; omega)
  exact step_of_refused hy (.line rfl)

/-- What `__getline` returns at a line of the text, whatever follows the text. -/
theorem line_getline (hne : c ≠ []) (hc : NoEol c) (he : isEol e = true)
    (hk : c.length < LINE_MAX_LEN) {k : Nat} {X : List UInt8} (hX : TailOk k X) :
    ∃ d M, l ++ X = d :: M ∧ getline (c ++ e :: l ++ X) ((c ++ e :: l).length + k : Nat) =
      .ok ⟨lineEnd c.length e d, lineFlag (c.headD 0), M⟩ := by
  obtain ⟨d, M, hd⟩ := List.exists_cons_of_ne_nil (l := l ++ X) (by simp [tailOk_ne_nil hX])
  refine ⟨d, M, hd, ?_⟩
  rw [List.append_assoc, List.cons_append, hd]
  exact getline_line hne hc hk he (by rw [line_length]; omega)

/-- A line that is stored leaves the loop behind it. -/
theorem stored_effect (hne : c ≠ []) (hc : NoEol c) (he : isEol e = true)
    (hk : c.length < LINE_MAX_LEN) {t' : Tables}
    (hs : ∀ X k line, line.flag = lineFlag (c.headD 0) →
      Stepped ⟨c ++ e :: l ++ X, k, t⟩ line
        ⟨(c ++ e :: l ++ X).drop line.lineLen, k - line.lineLen, t'⟩) :
    Effect (c ++ e :: l) l t (.ok t') := by
  intro k X hX r
  obtain ⟨d, M, hd, hl⟩ := line_getline (l := l) hne hc he hk hX
  have hstep := step_of_stepped (s := ⟨c ++ e :: l ++ X, _, t⟩) hl (hs X _ _ rfl)
  have hafter := after_line (c := c) he t' (l.length + k) (d := d) (M := M)
    (by rw [← hd]; exact tailOk_append l hX) (r := r)
  have hm : (((c ++ e :: l).length + k : Nat) : Int) ≠ 0 := by rw [line_length]; omega
  have hmem : c ++ e :: l ++ X = c ++ e :: d :: M := by
    rw [List.append_assoc, List.cons_append, hd]
  rw [outcome_next (s := ⟨c ++ e :: l ++ X, _, t⟩) hm hstep, hmem, line_length, hafter, hd]
  rfl

/-- A line that is refused stops the compiler. -/
theorem refused_effect (hne : c ≠ []) (hc : NoEol c) (he : isEol e = true)
    (hk : c.length < LINE_MAX_LEN) {err : Stop}
    (hs : ∀ X k line, line.flag = lineFlag (c.headD 0) →
      Refused ⟨c ++ e :: l ++ X, k, t⟩ line err) :
    Effect (c ++ e :: l) l t (.error err) := by
  intro k X hX r
  obtain ⟨d, M, -, hl⟩ := line_getline (l := l) hne hc he hk hX
  apply outcome_error (by rw [line_length]; simp only; omega)
  exact step_of_refused hl (hs X _ _ rfl)

/-- The effect of one line is the same whatever follows the text it stands in. -/
theorem line_effect (hc : NoEol c) (he : isEol e = true)
    (hin : c ≠ [] → LineInside (c ++ e :: l)) (t : Tables) :
    ∃ eff, Effect (c ++ e :: l) l t eff := by
  by_cases hne : c = []
  · subst hne
    exact ⟨.ok t, null_effect he l t⟩
  by_cases hk : LINE_MAX_LEN ≤ c.length
  · exact ⟨.error .format, long_effect hc hk⟩
  rw [not_le] at hk
  have hhead : (c ++ e :: l).headD 0 = c.headD 0 := by
    obtain ⟨ch, c', rfl⟩ := List.exists_cons_of_ne_nil hne
    rfl
  obtain ⟨hmain, hsub⟩ := hin hne
  rw [hhead] at hmain hsub
  cases hf : lineFlag (c.headD 0) with
  | comment =>
    exact ⟨.ok t, stored_effect hne hc he hk fun X k line hline => .inert (.inl (hline.trans hf))⟩
  | null =>
    exact ⟨.ok t, stored_effect hne hc he hk fun X k line hline => .inert (.inr (hline.trans hf))⟩
  | error => exact absurd hf (lineFlag_ne_error _)
  | mainkey =>
    obtain ⟨name, hname⟩ := hmain hf
    have hname' : ∀ X, fillMainkey (c ++ e :: l ++ X) = .ok name := fun X =>
      fillMainkey_append (by simp) hname X
    -- what is stored, or refused, is up to the tables and the line alone
    by_cases hroom : t.items.length < ITEM_MAX_COUNT
    · cases name with
      | none =>
        exact ⟨_, refused_effect hne hc he hk fun X k line hline =>
          .name (hline.trans hf) hroom (hname' X)⟩
      | some name =>
        exact ⟨.ok (storeMainkey t name), stored_effect hne hc he hk fun X k line hline =>
          .mainkey (hline.trans hf) hroom (hname' X)⟩
    · exact ⟨_, refused_effect hne hc he hk fun X k line hline =>
        .full (hline.trans hf) (not_lt.mp hroom)⟩
  | subkey =>
    obtain ⟨⟨key, value⟩, hkv⟩ := hsub hf
    have hkv' : ∀ X, getKeyValue (c ++ e :: l ++ X) = .ok (some (key, value)) := fun X =>
      getKeyValue_append hkv X
    cases hstore : storeSubkey t key value with
    | error err =>
      exact ⟨_, refused_effect hne hc he hk fun X k line hline =>
        .store (hline.trans hf) (hkv' X) hstore⟩
    | ok t' =>
      exact ⟨_, stored_effect hne hc he hk fun X k line hline =>
        .subkey (hline.trans hf) (hkv' X) hstore⟩

end Line

/-- The effect of the lines before a position is the same whatever follows it. -/
theorem before_effect {p : List UInt8} (h : Before p) (t : Tables) :
    ∃ eff, ∀ k X, TailOk k X → ∀ r,
      Outcome ⟨p ++ X, (p.length + k : Nat), t⟩ r ↔ Follows eff X k r := by
  induction h generalizing t with
  | nil => exact ⟨.ok t, fun k X _ r => by simp [Follows]⟩
  | @line c l e hc he hin _ ih =>
    obtain ⟨eff, heff⟩ := line_effect hc he hin t
    cases eff with
    | error err =>
      refine ⟨.error err, fun k X hX r => ?_⟩
      rw [heff k X hX r]
      rfl
    | ok t' =>
      obtain ⟨eff', heff'⟩ := ih t'
      refine ⟨eff', fun k X hX r => ?_⟩
      rw [heff k X hX r]
      exact heff' k X hX r

/-! ## The lines before -/

section Line
variable {c l : List UInt8} {e : UInt8} {t : Tables}

/-- A line on the way to an image takes the loop behind it, or one line feed further. -/
theorem line_step (hc : NoEol c) (he : isEol e = true) (hin : c ≠ [] → LineInside (c ++ e :: l))
    {k : Nat} {X : List UInt8} {img : List UInt8} (hX : TailOk k X)
    (h : Outcome ⟨c ++ e :: l ++ X, ((c ++ e :: l).length + k : Nat), t⟩ (.ok img)) :
    ∃ m t', (m = c.length + 1 ∨ m = c.length + 2 ∧ (l ++ X).head? = some chLf) ∧
      step ⟨c ++ e :: l ++ X, ((c ++ e :: l).length + k : Nat), t⟩ =
        .ok ⟨(c ++ e :: l ++ X).drop m, ((c ++ e :: l).length + k : Nat) - m, t'⟩ := by
  by_cases hne : c = []
  · subst hne
    -- an empty line takes one line feed behind it along
    obtain ⟨x, Z, hx⟩ := List.exists_cons_of_ne_nil (l := l ++ X) (by simp [tailOk_ne_nil hX])
    have hget : getline (e :: l ++ X) (([] ++ e :: l).length + k : Nat) =
        .ok ⟨if x = chLf then 2 else 1, .null, Z⟩ := by
      rw [List.cons_append, hx]
      exact getline_eq_ok.mpr (.null he)
    refine ⟨_, t, ?_, step_of_stepped hget (.inert (.inr rfl))⟩
    rw [hx]
    by_cases hlf : x = chLf
    · exact .inr ⟨if_pos hlf, congrArg some hlf⟩
    · exact .inl (if_neg hlf)
  by_cases hk : LINE_MAX_LEN ≤ c.length
  · have hlong := (long_effect (l := l) (t := t) hc hk k X hX (.ok img)).mp h
    cases hlong
  obtain ⟨d, M, hd, hget⟩ := line_getline (l := l) hne hc he (Nat.not_le.mp hk) hX
  have hm : (((c ++ e :: l).length + k : Nat) : Int) ≠ 0 := by rw [line_length]; omega
  have hend : lineEnd c.length e d = c.length + 1 ∨
      lineEnd c.length e d = c.length + 2 ∧ (l ++ X).head? = some chLf := by
    rw [hd]
    unfold lineEnd
    split
    · next hcr => exact .inr ⟨rfl, congrArg some hcr.2⟩
    · exact .inl rfl
  have hhead : (c ++ e :: l).headD 0 = c.headD 0 := by
    obtain ⟨ch, c', rfl⟩ := List.exists_cons_of_ne_nil hne
    rfl
  cases hstep : step ⟨c ++ e :: l ++ X, ((c ++ e :: l).length + k : Nat), t⟩ with
  | error err =>
    have hbad := (outcome_error hm hstep).mp h
    cases hbad
  | ok s' =>
    obtain ⟨line, hline, hs⟩ := step_inv hstep
    cases hget.symm.trans hline
    cases hs with
    | inert => exact ⟨_, _, hend, rfl⟩
    | mainkey => exact ⟨_, _, hend, rfl⟩
    | subkey => exact ⟨_, _, hend, rfl⟩
    | blank hf hkv =>
      -- a key line that is read inside the text is no line of blanks
      obtain ⟨⟨key, value⟩, hread⟩ := (hin hne).2 (by rw [hhead]; exact hf)
      cases (getKeyValue_append hread X).symm.trans hkv

end Line

/-- The line of a text that begins with a line feed is empty. -/
theorem split_lf {c l z : List UInt8} {e : UInt8} (hc : NoEol c) (h : chLf :: l = c ++ e :: z) :
    l = z := by
  cases c with
  | nil => exact (List.cons.inj h).2
  | cons x c =>
    have hx : isEol x = false := (noEol_cons.mp hc).1
    rw [← (List.cons.inj h).1] at hx
    cases hx

theorem before_tail {l : List UInt8} (h : Before (chLf :: l)) : Before l := by
  generalize hl : chLf :: l = l₀ at h
  cases h with
  | nil => cases hl
  | line hc _ _ hz => exact split_lf hc hl ▸ hz

/-- On the way to an image the loop comes to what stands behind the lines, if that does not begin
with a line feed. -/
theorem before_reach {X : List UInt8} {k : Nat} (hX : X ≠ []) (hlf : X.head? ≠ some chLf)
    {img : List UInt8} (n : Nat) : ∀ {p : List UInt8} {t : Tables}, p.length ≤ n → Before p →
    Outcome ⟨p ++ X, (p.length + k : Nat), t⟩ (.ok img) →
    ∃ t', Reach more step ⟨p ++ X, (p.length + k : Nat), t⟩ ⟨X, k, t'⟩ ∧
      Outcome ⟨X, k, t'⟩ (.ok img) := by
  have htail : TailOk k X := by
    obtain ⟨x, Z, rfl⟩ := List.exists_cons_of_ne_nil hX
    exact ⟨x, by simp, fun h => hlf (congrArg some h)⟩
  induction n with
  | zero =>
    intro p t hn _ h
    obtain rfl : p = [] := List.length_eq_zero_iff.mp (Nat.le_zero.mp hn)
    rw [List.length_nil, Nat.zero_add] at h ⊢
    exact ⟨t, .refl, h⟩
  | succ n ih =>
    intro p t hn hp h
    cases hp with
    | nil =>
      rw [List.length_nil, Nat.zero_add] at h ⊢
      exact ⟨t, .refl, h⟩
    | @line c l e hc he hin hl =>
      obtain ⟨m, t₁, hm, hstep⟩ := line_step hc he hin htail h
      have hlen : (c ++ e :: l).length = c.length + 1 + l.length := line_length 0
      have hne : (((c ++ e :: l).length + k : Nat) : Int) ≠ 0 := by omega
      rw [outcome_next hne hstep] at h
      have hmore : more ⟨c ++ e :: l ++ X, ((c ++ e :: l).length + k : Nat), t⟩ = true := by
        simpa [more] using hne
      -- the rest of the lines
      obtain ⟨q, hq, hqn, hsrc, hrest⟩ : ∃ q, Before q ∧ q.length ≤ n ∧
          (c ++ e :: l ++ X).drop m = q ++ X ∧
          (((c ++ e :: l).length + k : Nat) : Int) - m = (q.length + k : Nat) := by
        rcases hm with rfl | ⟨rfl, hhead⟩
        · exact ⟨l, hl, by omega, by simp, by rw [hlen]; omega⟩
        · cases l with
          | nil => exact absurd hhead hlf
          | cons x l' =>
            obtain rfl : x = chLf := Option.some.inj hhead
            rw [List.length_cons] at hlen
            exact ⟨l', before_tail hl, by omega, by simp, by rw [hlen]; omega⟩
      rw [hsrc, hrest] at h hstep
      obtain ⟨t', hreach, hout⟩ := ih hqn hq h
      exact ⟨t', .head hmore hstep hreach, hout⟩

/-! ## Inert lines -/

/-- Empty lines and comments hand over to what follows them. -/
theorem inert_outcome {p : List UInt8} (h : InertText p) (t : Tables) {k : Nat}
    {X : List UInt8} (hX : TailOk k X) (r : Except Stop (List UInt8)) :
    Outcome ⟨p ++ X, (p.length + k : Nat), t⟩ r ↔ Outcome ⟨X, k, t⟩ r := by
  induction h with
  | nil => simp
  | @line c l e hc hk hi he hl ih =>
    rw [← ih]
    rcases hi with rfl | hsemi
    · exact null_effect he l t k X hX r
    · have hne : c ≠ [] := by
        rintro rfl
        cases hsemi
      have hflag : lineFlag (c.headD 0) = .comment := by
        rw [List.headD_eq_head?_getD, hsemi]
        rfl
      apply stored_effect hne hc he hk _ k X hX r
      intro X k line hline
      exact .inert (.inl (hline.trans hflag))

/-! ## A line of blanks -/

theorem step_restLen_le {s s' : State} (h : step s = .ok s') : s'.restLen ≤ s.restLen := by
  obtain ⟨line, -, hs⟩ := step_inv h
  cases hs <;> simp only <;> omega

/-- A counter below zero never comes back to it: the loop writes no image. -/
theorem no_image_of_neg {s : State} {img : List UInt8} (h : s.restLen < 0) :
    ¬ Outcome s (.ok img) := by
  rintro ⟨r, ⟨n, hn⟩, hr⟩
  cases r with
  | error e => cases hr
  | ok s' =>
    obtain ⟨hreach, hend⟩ := reach_of_whileLoop hn
    have hneg : s'.restLen < 0 := hreach.invariant (I := fun s => s.restLen < 0) h
      fun t u ht _ hstep => by have := step_restLen_le hstep; omega
    have hzero : s'.restLen = 0 := by simpa [more] using hend
    omega

section Stuck
variable {c Y : List UInt8} {e d : UInt8}

/-- The loop on a line of blanks: the counter goes down by the length of the line. -/
theorem stuck_step (hne : c ≠ []) (hb : ∀ x ∈ c, isBlank x = true)
    (hk : c.length < LINE_MAX_LEN) (he : isEol e = true) (t : Tables) {rest : Int}
    (hrest : (lineEnd c.length e d : Int) ≤ rest) :
    step ⟨c ++ e :: d :: Y, rest, t⟩ =
      .ok ⟨c ++ e :: d :: Y, rest - lineEnd c.length e d, t⟩ := by
  have hflag : lineFlag (c.headD 0) = .subkey := by
    obtain ⟨ch, c', rfl⟩ := List.exists_cons_of_ne_nil hne
    rcases (isBlank_iff ch).mp (hb ch (by simp)) with rfl | rfl <;> rfl
  have hlt : (c.length : Int) < rest := by
    unfold lineEnd at hrest
    split at hrest <;> omega
  have hl := getline_line (M := Y) (d := d) hne (noEol_of_blank hb) hk he hlt
  exact step_of_stepped hl
    (.blank hflag (getKeyValue_eq_none.mpr ⟨c, e, d :: Y, rfl, hb, he⟩))

/-- A scan of 511 bytes that are no line ends does not pass the end of a shorter line. -/
theorem not_tooLong {c₁ Z Z' : List UInt8} (he : isEol e = true) (hk : c.length < c₁.length)
    (h : c ++ e :: Z = c₁ ++ Z') : ¬ NoEol c₁ := by
  intro hc₁
  have hpre : c ++ [e] <+: c₁ := by
    apply prefix_of_append (X := Z') (y := Z) (by rw [← h]; simp)
    rw [List.length_append, List.length_singleton]
    exact hk
  rw [hc₁ e (hpre.subset (by simp))] at he
  cases he

/-- With fewer bytes left than the line has, `__getline` takes more than is left. -/
theorem got_short (hne : c ≠ []) (hc : NoEol c) (hk : c.length < LINE_MAX_LEN)
    (he : isEol e = true) {rest : Int} (hrest : rest < lineEnd c.length e d) {line : Line}
    (h : Got rest (c ++ e :: d :: Y) line) : rest < line.lineLen := by
  obtain ⟨ch, c', rfl⟩ := List.exists_cons_of_ne_nil hne
  generalize hbuf : ch :: c' ++ e :: d :: Y = buf at h
  cases h with
  | null hch =>
    rw [List.cons_append] at hbuf
    rw [← (List.cons.inj hbuf).1, (noEol_cons.mp hc).1] at hch
    cases hch
  | @tooLong ch₁ d₁ c₁ y hch hc₁ hk₁ _ =>
    rw [List.cons_append] at hbuf
    refine absurd hc₁ (not_tooLong he ?_ (List.cons.inj hbuf).2)
    rw [List.length_cons] at hk
    omega
  | @line ch₁ d₁ d₂ c₁ y hch hc₁ hk₁ hd₁ =>
    rcases hd₁ with ⟨he₁, hlt⟩ | ⟨hge, -⟩
    · have hsplit : ch :: c' ++ e :: d :: Y = ch₁ :: c₁ ++ d₁ :: d₂ :: y := by
        rw [hbuf, List.cons_append]
      obtain ⟨hcc, rfl, hy⟩ := eol_split hsplit hc (noEol_cons.mpr ⟨hch, hc₁⟩) he he₁
      obtain ⟨rfl, rfl⟩ := List.cons.inj hcc
      obtain ⟨rfl, -⟩ := List.cons.inj hy
      exact hrest
    · simp only [lineEnd]
      split <;> push_cast <;> omega

/-- The counter then falls below zero. -/
theorem stuck_short (hne : c ≠ []) (hb : ∀ x ∈ c, isBlank x = true)
    (hk : c.length < LINE_MAX_LEN) (he : isEol e = true) (t : Tables) {rest : Int}
    (hpos : 0 < rest) (hrest : rest < lineEnd c.length e d) {img : List UInt8} :
    ¬ Outcome ⟨c ++ e :: d :: Y, rest, t⟩ (.ok img) := by
  intro h
  have hm : rest ≠ 0 := by omega
  cases hstep : step ⟨c ++ e :: d :: Y, rest, t⟩ with
  | error err =>
    have := (outcome_error (s := ⟨c ++ e :: d :: Y, rest, t⟩) hm hstep).mp h
    cases this
  | ok s' =>
    rw [outcome_next (s := ⟨c ++ e :: d :: Y, rest, t⟩) hm hstep] at h
    apply no_image_of_neg _ h
    obtain ⟨line, hl, hs⟩ := step_inv hstep
    have hlong := got_short hne (noEol_of_blank hb) hk he hrest (getline_eq_ok.mp hl)
    cases hs with
    | inert hf => simp only; omega
    | mainkey hf => simp only; omega
    | subkey hf => simp only; omega
    | blank hf => simp only; omega

/-- **The loop stays on a line of blanks.** It writes an image only when the length of the
line divides what is left of the script, and then none of it has been read. -/
theorem stuck_outcome (hne : c ≠ []) (hb : ∀ x ∈ c, isBlank x = true)
    (hk : c.length < LINE_MAX_LEN) (he : isEol e = true) (t : Tables) (rest : Nat)
    {img : List UInt8} :
    Outcome ⟨c ++ e :: d :: Y, rest, t⟩ (.ok img) ↔
      lineEnd c.length e d ∣ rest ∧ finish t = .ok img := by
  have hpos : 1 ≤ lineEnd c.length e d := by unfold lineEnd; split <;> omega
  induction rest using Nat.strongRecOn with
  | ind rest ih =>
    rcases Nat.eq_zero_or_pos rest with rfl | hr
    · rw [outcome_exit (by simp)]
      simp
    · by_cases hlt : rest < lineEnd c.length e d
      · refine ⟨?_, ?_⟩
        · intro h
          exact absurd h (stuck_short hne hb hk he t (by omega) (by omega))
        · rintro ⟨hdvd, -⟩
          exact absurd (Nat.le_of_dvd hr hdvd) (by omega)
      · have hle : (lineEnd c.length e d : Int) ≤ (rest : Int) := by omega
        have hstep := stuck_step (Y := Y) hne hb hk he t hle
        have hm : (rest : Int) ≠ 0 := by omega
        have hsub : (rest : Int) - lineEnd c.length e d = (rest - lineEnd c.length e d : Nat) := by
          omega
        rw [outcome_next (s := ⟨c ++ e :: d :: Y, rest, t⟩) hm hstep, hsub]
        refine (ih (rest - lineEnd c.length e d) (by omega)).trans (and_congr_left fun _ => ?_)
        exact Nat.dvd_sub_iff_left (by omega) (Nat.dvd_refl _)

end Stuck

/-! ## Stored lines -/

/-- The size of the image of the tables. -/
def imageSize (t : Tables) : Nat :=
  16 + (t.items.flatMap (itemBytes 0)).length + t.subkeyIdx * 40 +
    max (t.valueIdx * 4) t.valueData.length

theorem itemBytes_size (delta : Nat) (item : Item) :
    (itemBytes delta item).length = max 32 item.name.length + 8 := by
  simp only [itemBytes, List.length_append, padTo_length, le32_length, ITEM_NAME_MAX_LEN]

theorem relocate_length {delta n : Nat} {area : List UInt8} (h : n * 40 ≤ area.length) :
    (relocate delta n area).length = n * 40 := by
  induction n generalizing area with
  | zero => simp [relocate]
  | succ n ih =>
    have hrest : (relocate delta n (area.drop (KEY_MAX_LEN + 8))).length = n * 40 :=
      ih (by rw [List.length_drop]; unfold KEY_MAX_LEN; omega)
    rw [relocate, List.length_append, hrest]
    simp only [List.length_append, List.length_take, List.length_drop, le32_length, KEY_MAX_LEN]
    omega

theorem finish_size {t : Tables} {img : List UInt8} (h : finish t = .ok img) :
    img.length = imageSize t := by
  unfold finish at h
  dsimp only at h
  split at h
  · cases h
  · split at h
    · cases h
    · cases h
      have hitems : ∀ delta, (t.items.flatMap (itemBytes delta)).length =
          (t.items.flatMap (itemBytes 0)).length := by
        intro delta
        simp only [List.length_flatMap, itemBytes_size]
      rw [List.length_append, List.length_append, List.length_append, headBytes_length,
        hitems, relocate_length (by rw [padTo_length]; omega), padTo_length]
      unfold imageSize
      omega

theorem storeMainkey_size (t : Tables) (name : List UInt8) :
    imageSize t < imageSize (storeMainkey t name) := by
  simp only [imageSize, storeMainkey, List.flatMap_append, List.length_append,
    List.flatMap_singleton, itemBytes_size]
  omega

theorem countItems_size {items : List Item} {item : Item} (h : items.getLast? = some item)
    (n : Nat) : ((items.dropLast ++ [{ item with length := n }]).flatMap (itemBytes 0)).length =
      (items.flatMap (itemBytes 0)).length := by
  have hsplit : items = items.dropLast ++ [item] := by
    have hne : items ≠ [] := by
      rintro rfl
      cases h
    rw [List.getLast?_eq_some_getLast hne, Option.some.injEq] at h
    rw [← h, List.dropLast_append_getLast]
  conv_rhs => rw [hsplit]
  simp only [List.flatMap_append, List.length_append, List.flatMap_singleton, itemBytes_size]

theorem storeSubkey_size {t t' : Tables} {key value : List UInt8} (hk : key.length ≤ 31)
    (h : storeSubkey t key value = .ok t') : imageSize t < imageSize t' := by
  obtain ⟨r, hr⟩ := storeSubkey_parses h
  cases r with
  | none =>
    obtain ⟨-, item, hitem, rfl⟩ := (storeSubkey_none_eq_ok hr hk).mp h
    simp only [imageSize, countItems_size hitem]
    omega
  | some r =>
    obtain ⟨-, -, item, hitem, rfl⟩ := (storeSubkey_some_eq_ok hr hk).mp h
    simp only [imageSize, countItems_size hitem, List.length_append]
    omega

theorem step_size_le {s s' : State} (h : step s = .ok s') :
    imageSize s.tables ≤ imageSize s'.tables := by
  obtain ⟨line, -, hs⟩ := step_inv h
  cases hs with
  | inert => exact Nat.le_refl _
  | mainkey => exact Nat.le_of_lt (storeMainkey_size _ _)
  | blank => exact Nat.le_refl _
  | subkey _ hkv hstore => exact Nat.le_of_lt (storeSubkey_size (getKeyValue_length hkv).1 hstore)

/-- An image is at least as long as the tables of any state on the way to it. -/
theorem image_size_le {s : State} {img : List UInt8} (h : Outcome s (.ok img)) :
    imageSize s.tables ≤ img.length := by
  obtain ⟨r, ⟨n, hn⟩, hr⟩ := h
  cases r with
  | error e => cases hr
  | ok s' =>
    rw [ok_bind] at hr
    rw [finish_size hr]
    exact (reach_of_whileLoop hn).1.invariant
      (I := fun t => imageSize s.tables ≤ imageSize t.tables)
      (Nat.le_refl _) fun t u ht _ hstep => Nat.le_trans ht (step_size_le hstep)

/-! ## The insertion -/

/-- Every line has its end. -/
def Terminated (l : List UInt8) : Prop := ∀ x, l.getLast? = some x → isEol x = true

/-- No line is made of blanks only. -/
def NoBlankLine (l : List UInt8) : Prop :=
  ∀ p c e y, l = p ++ (c ++ e :: y) → Terminated p → NoEol c → isEol e = true → c ≠ [] →
    ¬ ∀ x ∈ c, isBlank x = true

/-- A line of blanks, with its end. -/
def BlankLine (ins : List UInt8) : Prop :=
  ∃ c eol, ins = c ++ eol ∧ LineEnd eol ∧ c ≠ [] ∧ ∀ x ∈ c, isBlank x = true

/-- The lines inserted: empty, of blanks, or a comment, of fewer than 500 bytes. -/
inductive Insertable : List UInt8 → Prop
  | empty {eol : List UInt8} (he : LineEnd eol) : Insertable eol
  | blank {c eol : List UInt8} (hne : c ≠ []) (hb : ∀ x ∈ c, isBlank x = true)
      (hlen : c.length + eol.length < 500) (he : LineEnd eol) : Insertable (c ++ eol)
  | comment {c eol : List UInt8} (hs : c.head? = some chSemi) (hc : NoEol c)
      (hlen : c.length + eol.length < 500) (he : LineEnd eol) : Insertable (c ++ eol)

theorem terminated_append {l l' : List UInt8} (h : Terminated (l ++ l')) : Terminated l' := by
  intro x hx
  apply h x
  rw [List.getLast?_append, hx]
  rfl

theorem inert_terminated {l : List UInt8} (h : InertText l) : Terminated l := by
  induction h with
  | nil => intro x hx; cases hx
  | @line c l e _ _ _ he _ ih =>
    intro x hx
    rw [List.getLast?_append, List.getLast?_cons] at hx
    cases hl : l.getLast? with
    | none =>
      rw [hl] at hx
      simp only [Option.getD_none, Option.some_or, Option.some.injEq] at hx
      rw [← hx]; exact he
    | some z =>
      rw [hl] at hx
      simp only [Option.getD_some, Option.some_or, Option.some.injEq] at hx
      rw [← hx]; exact ih z hl

/-- The first line of a text. -/
theorem first_line {l : List UInt8} (h : Terminated l) (hne : l ≠ []) :
    ∃ c e z, l = c ++ e :: z ∧ NoEol c ∧ isEol e = true ∧ Terminated z := by
  obtain ⟨c, z, rfl, hc, hz⟩ := split_eol l
  cases z with
  | nil =>
    rw [List.append_nil] at h hne
    have hlast := h _ (List.getLast?_eq_some_getLast hne)
    rw [hc _ (List.getLast_mem hne)] at hlast
    cases hlast
  | cons e z =>
    exact ⟨c, e, z, rfl, hc, hz e z rfl, terminated_append (l := [e]) (terminated_append h)⟩

/-- A text is inert, or has a first line that is not. -/
theorem inert_or_line {l : List UInt8} (h : Terminated l) : InertText l ∨
    ∃ q c e z, l = q ++ (c ++ e :: z) ∧ InertText q ∧ NoEol c ∧ isEol e = true ∧ c ≠ [] ∧
      (c.head? ≠ some chSemi ∨ LINE_MAX_LEN ≤ c.length) := by
  generalize hn : l.length = n
  induction n using Nat.strongRecOn generalizing l with
  | ind n ih =>
    by_cases hne : l = []
    · subst hne
      exact .inl .nil
    obtain ⟨c, e, z, rfl, hc, he, hz⟩ := first_line h hne
    by_cases hi : c.length < LINE_MAX_LEN ∧ (c = [] ∨ c.head? = some chSemi)
    · rcases ih z.length (by rw [← hn]; simp only [List.length_append, List.length_cons]; omega)
        hz rfl with hin | ⟨q, c', e', z', rfl, hq, hrest⟩
      · exact .inl (.line hc hi.1 hi.2 he hin)
      · exact .inr ⟨c ++ e :: q, c', e', z', by simp, .line hc hi.1 hi.2 he hq, hrest⟩
    · refine .inr ⟨[], c, e, z, rfl, .nil, hc, he, ?_, ?_⟩
      · rintro rfl
        exact hi ⟨by decide, .inl rfl⟩
      · by_contra hcon
        push Not at hcon
        exact hi ⟨hcon.2, .inr hcon.1⟩

theorem lineFlag_comment {ch : UInt8} (h : lineFlag ch = .comment) : ch = chSemi := by
  unfold lineFlag at h
  split at h
  · assumption
  · split at h
    · cases h
    · split at h <;> cases h

/-- The first line that is neither inert nor made of blanks is stored. -/
theorem line_grows {c M : List UInt8} {e : UInt8} {k : Int} {t : Tables} {s' : State}
    (hc : NoEol c) (he : isEol e = true) (hne : c ≠ [])
    (hhead : c.head? ≠ some chSemi ∨ LINE_MAX_LEN ≤ c.length)
    (hb : ¬ ∀ x ∈ c, isBlank x = true) (hk : (c.length : Int) < k) (hM : M ≠ [])
    (hstep : step ⟨c ++ e :: M, k, t⟩ = .ok s') : imageSize t < imageSize s'.tables := by
  obtain ⟨line, hl, hs⟩ := step_inv hstep
  obtain ⟨d, Y, rfl⟩ := List.exists_cons_of_ne_nil hM
  -- a line that is too long is refused
  have hshort : c.length < LINE_MAX_LEN := by
    by_contra hlong
    obtain ⟨y, hy⟩ := getline_long (M := e :: d :: Y) hc (by simp) (by omega) hk
    have hl' : getline (c ++ e :: d :: Y) k = .ok line := hl
    rw [hy, Except.ok.injEq] at hl'
    subst hl'
    cases hs <;> simp_all
  have hflag : line.flag = lineFlag (c.headD 0) := by
    have hl' : getline (c ++ e :: d :: Y) k = .ok line := hl
    rw [getline_line hne hc hshort he hk, Except.ok.injEq] at hl'
    rw [← hl']
  obtain ⟨ch, c', rfl⟩ := List.exists_cons_of_ne_nil hne
  rw [List.headD_cons] at hflag
  cases hs with
  | inert hf =>
    exfalso
    rcases hf with hf | hf
    · rcases hhead with hsemi | hlong
      · exact hsemi (by rw [lineFlag_comment (hflag.symm.trans hf)]; rfl)
      · omega
    · have := lineFlag_null.mp (hflag.symm.trans hf)
      rw [(noEol_cons.mp hc).1] at this
      cases this
  | mainkey => exact storeMainkey_size _ _
  | subkey _ hkv hstore => exact storeSubkey_size (getKeyValue_length hkv).1 hstore
  | blank _ hkv =>
    exfalso
    obtain ⟨c₀, e₀, y₀, hsplit, hb₀, he₀⟩ := getKeyValue_eq_none.mp hkv
    obtain ⟨rfl, -, -⟩ := eol_split hsplit hc (noEol_of_blank hb₀) he he₀
    exact hb hb₀

theorem inert_tail {l : List UInt8} (h : InertText (chLf :: l)) : InertText l := by
  generalize hl : chLf :: l = l₀ at h
  cases h with
  | nil => cases hl
  | line hc _ _ _ hz => exact split_lf hc hl ▸ hz

/-- The loop has only empty lines and comments before it, or has missed the end. -/
def OverInert (X : List UInt8) (t : Tables) (s : State) : Prop :=
  s.restLen < 0 ∨
    ∃ q, InertText q ∧ s.src = q ++ X ∧ s.restLen = (q.length : Int) ∧ s.tables = t

/-- An empty line or a comment is taken up to its end, or one line feed further. -/
theorem inert_getline {c M : List UInt8} {e d : UInt8} {len : Int} {line : Line}
    (hc : NoEol c) (hk : c.length < LINE_MAX_LEN) (hi : c = [] ∨ c.head? = some chSemi)
    (he : isEol e = true) (hlen : (c.length : Int) < len)
    (hl : getline (c ++ e :: d :: M) len = .ok line) :
    (line.flag = .comment ∨ line.flag = .null) ∧
      (line.lineLen = c.length + 1 ∨ (line.lineLen = c.length + 2 ∧ d = chLf)) := by
  rcases hi with rfl | hsemi
  · have hnull : getline (e :: d :: M) len = .ok ⟨if d = chLf then 2 else 1, .null, M⟩ :=
      getline_eq_ok.mpr (.null he)
    rw [List.nil_append, hnull, Except.ok.injEq] at hl
    subst hl
    refine ⟨.inr rfl, ?_⟩
    by_cases hd : d = chLf <;> simp [hd]
  · have hne : c ≠ [] := by
      rintro rfl
      cases hsemi
    rw [getline_line hne hc hk he hlen, Except.ok.injEq] at hl
    subst hl
    refine ⟨.inl ?_, ?_⟩
    · rw [List.headD_eq_head?_getD, hsemi]; rfl
    · simp only [lineEnd]
      split
      · next hcr => exact .inr ⟨rfl, hcr.2⟩
      · exact .inl rfl

/-- Behind the end of an inert line, or one line feed further, what is left is inert. -/
theorem inert_drop {c l M X : List UInt8} {e d : UInt8} (hl : InertText l)
    (hd : l ++ X = d :: M) {n : Nat}
    (hn : n = c.length + 1 ∨ (n = c.length + 2 ∧ d = chLf)) :
    ((c ++ e :: l).length : Int) - n < 0 ∨
      ∃ q, InertText q ∧ (c ++ e :: d :: M).drop n = q ++ X ∧
        ((c ++ e :: l).length : Int) - n = (q.length : Int) := by
  have hlen : (c ++ e :: l).length = c.length + 1 + l.length := line_length 0
  rw [hlen]
  rcases hn with rfl | ⟨rfl, rfl⟩
  · refine .inr ⟨l, hl, ?_, by omega⟩
    rw [← hd]; simp
  · cases l with
    | nil =>
      left
      rw [List.length_nil]; omega
    | cons x l' =>
      obtain ⟨rfl, hM⟩ := List.cons.inj hd
      refine .inr ⟨l', inert_tail hl, ?_, ?_⟩
      · rw [← hM]; simp
      · rw [List.length_cons]; omega

theorem overInert_step {X : List UInt8} {t : Tables} (hX : X ≠ []) {u v : State}
    (h : OverInert X t u) (hm : more u = true) (hstep : step u = .ok v) : OverInert X t v := by
  rcases h with hneg | ⟨q, hq, hsrc, hrest, rfl⟩
  · left
    have := step_restLen_le hstep
    omega
  cases hq with
  | nil => simp [more, hrest] at hm
  | @line c l e hc hk hi he hl =>
    obtain ⟨d, M, hd⟩ := List.exists_cons_of_ne_nil (l := l ++ X) (by simp [hX])
    have hsrc' : u.src = c ++ e :: d :: M := by rw [hsrc, ← hd]; simp
    obtain ⟨line, hline, hs⟩ := step_inv hstep
    rw [hsrc'] at hline
    obtain ⟨hflag, hlen⟩ := inert_getline hc hk hi he (by rw [hrest]; simp) hline
    cases hs with
    | inert =>
      rcases inert_drop (e := e) hl hd hlen with hneg | ⟨q, hq, h₁, h₂⟩
      · exact .inl (by rw [hrest]; exact hneg)
      · exact .inr ⟨q, hq, by rw [hsrc']; exact h₁, by rw [hrest]; exact h₂, rfl⟩
    | mainkey hf => rcases hflag with h | h <;> rw [h] at hf <;> cases hf
    | blank hf => rcases hflag with h | h <;> rw [h] at hf <;> cases hf
    | subkey hf => rcases hflag with h | h <;> rw [h] at hf <;> cases hf

/-- Over empty lines and comments the tables stay, unless the counter falls below zero. -/
theorem inert_image {p X : List UInt8} {t : Tables} {img : List UInt8} (h : InertText p)
    (hX : X ≠ []) (hout : Outcome ⟨p ++ X, p.length, t⟩ (.ok img)) : finish t = .ok img := by
  obtain ⟨r, ⟨n, hn⟩, hr⟩ := hout
  cases r with
  | error e => cases hr
  | ok s =>
    obtain ⟨hreach, hend⟩ := reach_of_whileLoop hn
    have hzero : s.restLen = 0 := by simpa [more] using hend
    have hover : OverInert X t s := hreach.invariant (I := OverInert X t)
      (.inr ⟨p, h, rfl, rfl, rfl⟩) fun _ _ h hm hstep => overInert_step hX h hm hstep
    rcases hover with hneg | ⟨q, -, -, -, rfl⟩
    · omega
    · exact hr

/-- A text without lines of blanks leaves the image of the tables as it is exactly when it
stores nothing. -/
theorem inert_iff {post X : List UInt8} {t : Tables} {img : List UInt8}
    (hpost : Terminated post) (hblank : NoBlankLine post) (hX : X ≠ [])
    (h : Outcome ⟨post ++ X, post.length, t⟩ (.ok img)) :
    finish t = .ok img ↔ InertText post := by
  refine ⟨fun hfin => ?_, fun hin => inert_image hin hX h⟩
  rcases inert_or_line hpost with hin | ⟨q, c, e, z, rfl, hq, hc, he, hne, hhead⟩
  · exact hin
  exfalso
  have hmem : q ++ (c ++ e :: z) ++ X = q ++ (c ++ e :: (z ++ X)) := by simp
  have hlen : (q ++ (c ++ e :: z)).length = q.length + (c.length + 1 + z.length) := by
    simp only [List.length_append, List.length_cons]; omega
  have htail : TailOk (c.length + 1 + z.length) (c ++ e :: (z ++ X)) := by
    obtain ⟨ch, c', rfl⟩ := List.exists_cons_of_ne_nil hne
    have hch := (noEol_cons.mp hc).1
    exact ⟨ch, by simp, by rintro rfl; cases hch⟩
  rw [hmem, hlen, inert_outcome hq t htail] at h
  have hm : ((c.length + 1 + z.length : Nat) : Int) ≠ 0 := by omega
  cases hstep : step ⟨c ++ e :: (z ++ X), (c.length + 1 + z.length : Nat), t⟩ with
  | error err =>
    have := (outcome_error (s := ⟨c ++ e :: (z ++ X), _, t⟩) hm hstep).mp h
    cases this
  | ok s' =>
    rw [outcome_next (s := ⟨c ++ e :: (z ++ X), _, t⟩) hm hstep] at h
    have hgrow := line_grows hc he hne hhead
      (hblank q c e z rfl (inert_terminated hq) hc he hne) (by omega) (by simp [hX]) hstep
    have := image_size_le h
    rw [finish_size hfin] at this
    omega

/-- What ends a line is an empty line itself. -/
theorem lineEnd_inert {eol : List UInt8} (he : LineEnd eol) : InertText eol := by
  have hlf : InertText [chLf] := .line (c := []) noEol_nil (by decide) (.inl rfl) rfl .nil
  rcases he with rfl | rfl
  · exact hlf
  · exact .line (c := []) noEol_nil (by decide) (.inl rfl) rfl hlf

/-- A line that starts with a byte that is no blank. -/
theorem not_blankLine {ch : UInt8} {ins : List UInt8} (hch : isBlank ch = false) :
    ¬ BlankLine (ch :: ins) := by
  rintro ⟨c, eol, heq, -, hne, hb⟩
  obtain ⟨ch', c', rfl⟩ := List.exists_cons_of_ne_nil hne
  rw [List.cons_append] at heq
  rw [(List.cons.inj heq).1, hb ch' (by simp)] at hch
  cases hch

/-- A line that is inserted is inert, or a line of blanks. -/
theorem insertable_cases {ins : List UInt8} (h : Insertable ins) :
    (InertText ins ∧ ¬ BlankLine ins) ∨
      ∃ c eol, ins = c ++ eol ∧ LineEnd eol ∧ c ≠ [] ∧ (∀ x ∈ c, isBlank x = true) ∧
        c.length < LINE_MAX_LEN := by
  cases h with
  | empty he =>
    refine .inl ⟨lineEnd_inert he, ?_⟩
    rcases he with rfl | rfl
    · exact not_blankLine rfl
    · exact not_blankLine rfl
  | @comment c eol hs hc hlen he =>
    have hk : c.length < LINE_MAX_LEN := by unfold LINE_MAX_LEN; omega
    refine .inl ⟨?_, ?_⟩
    · rcases he with rfl | rfl
      · exact .line hc hk (.inr hs) rfl .nil
      · exact .line hc hk (.inr hs) rfl (lineEnd_inert (.inl rfl))
    · obtain ⟨ch, c', rfl⟩ := List.exists_cons_of_ne_nil (l := c) (by rintro rfl; cases hs)
      obtain rfl : ch = chSemi := Option.some.inj hs
      exact not_blankLine rfl
  | @blank c eol hne hb hlen he =>
    exact .inr ⟨c, eol, rfl, he, hne, hb, by unfold LINE_MAX_LEN; omega⟩

/-- `stuck_outcome` for a line of blanks with either line end. -/
theorem stuck_follows {c eol X : List UInt8} (he : LineEnd eol) (hne : c ≠ [])
    (hb : ∀ x ∈ c, isBlank x = true) (hk : c.length < LINE_MAX_LEN) (hX : X ≠ [])
    (t : Tables) (n : Nat) {img : List UInt8} :
    Follows (.ok t) (c ++ eol ++ X) n (.ok img) ↔
      (c ++ eol).length ∣ n ∧ finish t = .ok img := by
  rcases he with rfl | rfl
  · obtain ⟨d, Y, rfl⟩ := List.exists_cons_of_ne_nil hX
    have hend : lineEnd c.length chLf d = (c ++ [chLf]).length := by
      simp [lineEnd, show chLf ≠ chCr by decide]
    rw [← hend, ← stuck_outcome (Y := Y) hne hb hk rfl t n]
    simp [Follows]
  · have hend : lineEnd c.length chCr chLf = (c ++ [chCr, chLf]).length := by simp [lineEnd]
    rw [← hend, ← stuck_outcome (Y := X) hne hb hk rfl t n]
    simp [Follows]

/-- **Inserting a line.** The lines before the position read nothing behind it, the lines
behind it are no blanks, and the script does not end in line feeds that go on behind it:
then the image stays as it is, except for a line of blanks. That one keeps it only when
its length divides what follows, and what follows stores nothing. -/
theorem insert_iff {pre post ins rest : List UInt8} {next : UInt8} {img : List UInt8}
    (hpre : Before pre) (hpost : Terminated post) (hblank : NoBlankLine post)
    (htail : ∃ x ∈ post ++ [next], x ≠ chLf) (hins : Insertable ins)
    (h : Compiles ⟨pre ++ post, next, rest⟩ img) :
    Compiles ⟨pre ++ (ins ++ post), next, rest⟩ img ↔
      ¬ BlankLine ins ∨ (ins.length ∣ post.length ∧ InertText post) := by
  have hX : TailOk post.length (post ++ next :: rest) := by
    obtain ⟨x, hx, hne⟩ := htail
    refine ⟨x, ?_, hne⟩
    rw [List.take_length_add_append]
    simpa using hx
  obtain ⟨eff, heff⟩ := before_effect hpre initTables
  have hinit : ∀ l, initState ⟨pre ++ l, next, rest⟩ =
      ⟨pre ++ (l ++ next :: rest), (pre.length + l.length : Nat), initTables⟩ := by
    intro l
    simp [initState, ScriptBuf.mem]
  have hXins := tailOk_append ins hX
  rw [compiles_iff, hinit, heff _ _ hX] at h
  rw [compiles_iff, hinit, List.append_assoc, List.length_append, heff _ _ hXins]
  cases eff with
  | error err => cases h
  | ok t =>
    rcases insertable_cases hins with ⟨hi, hnb⟩ | ⟨c, eol, rfl, he, hne, hb, hk⟩
    · exact ⟨fun _ => .inl hnb, fun _ => (inert_outcome hi t hX (.ok img)).mpr h⟩
    · have hblankLine : BlankLine (c ++ eol) := ⟨c, eol, rfl, he, hne, hb⟩
      rw [stuck_follows he hne hb hk (by simp), inert_iff hpost hblank (by simp) h,
        Nat.dvd_add_right (Nat.dvd_refl _)]
      exact ⟨.inr, fun h => h.resolve_left (not_not_intro hblankLine)⟩

/-- A comment put into a script of one section and one key. -/
theorem insert_comment : ∃ img,
    Compiles ⟨ascii "[a]\n" ++ (ascii ";x\n" ++ ascii "k=1\n"), 0, [0]⟩ img := by
  have himg : ((parseScript 2 ⟨ascii "[a]\n" ++ ascii "k=1\n", 0, [0]⟩).bind
      Except.toOption).isSome = true := by decide +kernel
  obtain ⟨img, himg⟩ := Option.isSome_iff_exists.mp himg
  have hnl : isEol chLf = true := rfl
  have hpre : Before (ascii "[a]" ++ chLf :: []) → Before (ascii "[a]\n") := id
  have hins : Insertable (ascii ";x" ++ [chLf]) → Insertable (ascii ";x\n") := id
  refine ⟨img, (insert_iff (hpre (.line ?_ hnl (fun _ => ⟨?_, ?_⟩) .nil)) ?_ ?_
    ⟨0x6b, by decide, by decide⟩ (hins (.comment rfl ?_ (by decide) (.inl rfl)))
    (compiles_of_run himg)).mpr (.inl ?_)⟩
  · decide +kernel
  · exact fun _ => ⟨some (ascii "a"), by decide +kernel⟩
  · exact fun h => absurd h (by decide)
  · intro x hx
    obtain rfl : 0x0a = x := Option.some.inj hx
    rfl
  · -- no byte of the text is a blank
    intro p c e y hsplit _ _ _ hne hb
    obtain ⟨ch, c', rfl⟩ := List.exists_cons_of_ne_nil hne
    have hmem : ch ∈ ascii "k=1\n" := by rw [hsplit]; simp
    have hno : ∀ x ∈ ascii "k=1\n", isBlank x = false := by decide +kernel
    have := hno ch hmem
    rw [hb ch (by simp)] at this
    cases this
  · decide +kernel
  · exact not_blankLine rfl

/-- A line with one blank, put before the one key of a script, drops the key from it. -/
theorem blank_line_drops_key : Insertable (ascii " \n") ∧
    ∃ img, Compiles ⟨ascii "[a]\n" ++ ascii "k=1\n", 0, [0]⟩ img ∧
      ¬ Compiles ⟨ascii "[a]\n" ++ (ascii " \n" ++ ascii "k=1\n"), 0, [0]⟩ img := by
  have hsize : ((parseScript 2 ⟨ascii "[a]\n" ++ ascii "k=1\n", 0, [0]⟩).bind
      Except.toOption).map List.length = some 100 := by decide +kernel
  have hsize' : ((parseScript 4 ⟨ascii "[a]\n" ++ (ascii " \n" ++ ascii "k=1\n"), 0, [0]⟩).bind
      Except.toOption).map List.length = some 56 := by decide +kernel
  obtain ⟨img, himg, hlen⟩ := Option.map_eq_some_iff.mp hsize
  obtain ⟨img', himg', hlen'⟩ := Option.map_eq_some_iff.mp hsize'
  refine ⟨.blank (c := [chSpace]) (by simp) (by decide +kernel) (by decide) (.inl rfl), img,
    compiles_of_run himg, ?_⟩
  intro h
  rw [compiles_unique h (compiles_of_run himg'), hlen'] at hlen
  exact absurd hlen (by decide)

end Lichee.Script

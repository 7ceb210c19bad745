import Lichee.Script.Faults
import Lichee.Script.Layout

/- The bounds of the compiler's tables: `item_table[ITEM_MAX_COUNT]` and the two 512KB
   areas. No line is checked against any of them. What keeps a run inside is the script:
   a key line only behind a section line, and no more sections, records and value words
   than the tables hold (`LineRoom`, a condition on the line and the counters before it).

   `keyData.length ≤ 40 * subkeyIdx` and `valueData.length = 4 * valueIdx` hold after every
   line of every script (`Cursors`); with them the counters bound both cursors, and
   `inTables_room` follows. -/
namespace Lichee.Script
open Base

/-- No access of the run misses a table. -/
def InTables (b : ScriptBuf) : Prop :=
  ∀ s, Seen b s →
    (more s = true → Untabled (step s)) ∧
    (more s = false → Untabled (finish s.tables))

/-- The records the key area holds, and the words the value area holds. -/
def MAX_RECORDS : Nat := AREA_SIZE / 40
def MAX_WORDS : Nat := AREA_SIZE / 4

/-- The tables have room for the line at `s`. -/
structure LineRoom (s : State) : Prop where
  mainkey : ∀ line, getline s.src s.restLen = .ok line → line.flag = .mainkey →
    s.tables.items.length < ITEM_MAX_COUNT
  subkey : ∀ line kv, getline s.src s.restLen = .ok line → line.flag = .subkey →
    getKeyValue s.src = .ok (some kv) →
    s.tables.items ≠ [] ∧ s.tables.subkeyIdx < MAX_RECORDS ∧
      ∀ r, getStr2int (padTo VALUE_MAX_LEN kv.2) = .ok (some r) →
        s.tables.valueIdx + r.words.toNat ≤ MAX_WORDS

/-- The value of the line at `s`, if it has one, parses. -/
def ValueParses (s : State) : Prop :=
  ∀ line kv, getline s.src s.restLen = .ok line → line.flag = .subkey →
    getKeyValue s.src = .ok (some kv) →
    ∃ r, getStr2int (padTo VALUE_MAX_LEN kv.2) = .ok (some r)

/-! ## The cursors -/

/-- The counters bound the cursors, whatever the lines hold. -/
structure Cursors (t : Tables) : Prop where
  key : t.keyData.length ≤ 40 * t.subkeyIdx
  value : t.valueData.length = 4 * t.valueIdx

theorem storeSubkey_cursors {t t' : Tables} {key value : List UInt8} (h : Cursors t)
    (hk : key.length ≤ 31) (hstore : storeSubkey t key value = .ok t') : Cursors t' := by
  have hc := cstr_length_le key
  have hkey := h.key
  have hvalue := h.value
  obtain ⟨r, hr⟩ := storeSubkey_parses hstore
  cases r with
  | none =>
    obtain ⟨-, item, -, rfl⟩ := (storeSubkey_none_eq_ok hr hk).mp hstore
    refine ⟨?_, hvalue⟩
    simp only [List.length_append, padTo_length, zeros_length, KEY_MAX_LEN]; omega
  | some r =>
    obtain ⟨-, -, item, -, rfl⟩ := (storeSubkey_some_eq_ok hr hk).mp hstore
    have hdata := data_length hr
    refine ⟨?_, ?_⟩
    · simp only [List.length_append, padTo_length, le32_length, KEY_MAX_LEN]; omega
    · simp only [List.length_append]; omega

theorem step_cursors {s s' : State} (h : Cursors s.tables) (hstep : step s = .ok s') :
    Cursors s'.tables := by
  obtain ⟨line, -, hs⟩ := step_inv hstep
  cases hs with
  | inert => exact h
  | mainkey => exact ⟨h.key, h.value⟩
  | blank => exact h
  | subkey _ hkv hstore => exact storeSubkey_cursors h (getKeyValue_length hkv).1 hstore

theorem seen_cursors {b : ScriptBuf} {s : State} (h : Seen b s) : Cursors s.tables :=
  h.invariant (I := fun s => Cursors s.tables)
    ⟨by simp [initState, initTables], by simp [initState, initTables]⟩
    fun _ _ hI _ hstep => step_cursors hI hstep

/-! ## Room for a line -/

/-- With a section to count in, and room by the counters, a key line is stored. -/
theorem storeSubkey_room {t : Tables} {key value : List UInt8} (hc : Cursors t)
    (hk : key.length ≤ 31) (hne : t.items ≠ []) (hidx : t.subkeyIdx < MAX_RECORDS)
    (hw : ∀ r, getStr2int (padTo VALUE_MAX_LEN value) = .ok (some r) →
      t.valueIdx + r.words.toNat ≤ MAX_WORDS) : Untabled (storeSubkey t key value) := by
  have hck := hc.key
  have hcv := hc.value
  have hcs := cstr_length_le key
  unfold MAX_RECORDS AREA_SIZE at hidx
  unfold MAX_WORDS AREA_SIZE at hw
  obtain ⟨item, hitem⟩ : ∃ item, t.items.getLast? = some item :=
    ⟨_, List.getLast?_eq_some_getLast hne⟩
  cases hr : getStr2int (padTo VALUE_MAX_LEN value) with
  | error e =>
    -- the name has been written when the value parser leaves its buffer
    intro e' he
    have hput : putKey t key = .ok
        { t with keyData := t.keyData ++ padTo KEY_MAX_LEN (cstr key ++ [0]) } :=
      putKey_eq_ok.mpr ⟨by unfold AREA_SIZE; omega, rfl⟩
    unfold storeSubkey at he
    rw [hput, ok_bind, hr, error_bind] at he
    cases he
    exact (getStr2int_reads _).untabled _ hr
  | ok r =>
    cases r with
    | none =>
      rw [(storeSubkey_none_eq_ok hr hk).mpr ⟨by unfold AREA_SIZE; omega, item, hitem, rfl⟩]
      exact .ok _
    | some r =>
      have hroom := hw r hr
      have hdata := data_length hr
      rw [(storeSubkey_some_eq_ok hr hk).mpr
        ⟨by unfold AREA_SIZE; omega, by unfold AREA_SIZE; omega, item, hitem, rfl⟩]
      exact .ok _

/-- A line the tables have room for misses none of them. -/
theorem step_room {s : State} (hc : Cursors s.tables) (h : LineRoom s) : Untabled (step s) := by
  intro e he
  rcases step_error_inv he with hl | ⟨line, hl, hr⟩
  · exact (getline_reads _ _).untabled _ hl
  cases hr with
  | line => rfl
  | full hf hfull =>
    have hroom := h.mainkey line hl hf
    omega
  | name => rfl
  | nameRead _ _ hname => exact (fillMainkey_reads _).untabled _ hname
  | keyRead _ hkv => exact (getKeyValue_reads _).untabled _ hkv
  | store hf hkv hstore =>
    obtain ⟨hne, hidx, hw⟩ := h.subkey line _ hl hf hkv
    exact storeSubkey_room hc (getKeyValue_length hkv).1 hne hidx hw _ hstore

/-- The record counter after a line the tables have room for. -/
theorem step_subkeyIdx {s s' : State} (h : LineRoom s) (hi : s.tables.subkeyIdx ≤ MAX_RECORDS)
    (hstep : step s = .ok s') : s'.tables.subkeyIdx ≤ MAX_RECORDS := by
  obtain ⟨line, hl, hs⟩ := step_inv hstep
  cases hs with
  | inert => exact hi
  | mainkey => exact hi
  | blank => exact hi
  | subkey hf hkv hstore =>
    have hidx := (h.subkey line _ hl hf hkv).2.1
    have hk := (getKeyValue_length hkv).1
    obtain ⟨r, hr⟩ := storeSubkey_parses hstore
    cases r with
    | none =>
      obtain ⟨-, item, -, rfl⟩ := (storeSubkey_none_eq_ok hr hk).mp hstore
      exact hidx
    | some r =>
      obtain ⟨-, -, item, -, rfl⟩ := (storeSubkey_some_eq_ok hr hk).mp hstore
      exact hidx

theorem finish_untabled {t : Tables} (h : t.subkeyIdx ≤ MAX_RECORDS) : Untabled (finish t) := by
  unfold MAX_RECORDS at h
  have hsize : ¬ t.subkeyIdx * 40 > AREA_SIZE := by
    have := Nat.div_mul_le_self AREA_SIZE 40
    omega
  unfold finish
  dsimp only
  split
  · exact .error rfl
  · exact .ok _

theorem inTables_of_room {b : ScriptBuf}
    (h : ∀ s, Seen b s → more s = true → LineRoom s) : InTables b := by
  have hidx : ∀ s, Seen b s → s.tables.subkeyIdx ≤ MAX_RECORDS := fun s hs =>
    hs.invariant_reach (I := fun s => s.tables.subkeyIdx ≤ MAX_RECORDS)
      (by simp [initState, initTables])
      fun t _ hr hi hm hstep => step_subkeyIdx (h t hr hm) hi hstep
  intro s hs
  exact ⟨fun hm => step_room (seen_cursors hs) (h s hs hm), fun _ => finish_untabled (hidx s hs)⟩

/-- A key line whose value parses is stored, or misses a table. -/
theorem storeSubkey_misses {t : Tables} {key value : List UInt8} {r : Str2int} {e : Stop}
    (hv : getStr2int (padTo VALUE_MAX_LEN value) = .ok (some r))
    (h : storeSubkey t key value = .error e) : e.table = true := by
  have hput : ∀ {f area bytes width e}, f.table = true → put f area bytes width = .error e →
      e.table = true := by
    intro f area bytes width e hf he
    unfold put at he
    split at he
    · cases he
    · cases he
      exact hf
  rw [storeSubkey_some hv] at h
  rcases bind_eq_error.mp h with h | ⟨t₁, -, h⟩
  · rcases bind_eq_error.mp h with h | ⟨_, -, h⟩
    · exact hput rfl h
    · cases h
  rcases bind_eq_error.mp h with h | ⟨t₂, -, h⟩
  · rcases bind_eq_error.mp h with h | ⟨_, -, h⟩
    · exact hput rfl h
    rcases bind_eq_error.mp h with h | ⟨_, -, h⟩
    · exact hput rfl h
    rcases bind_eq_error.mp h with h | ⟨_, -, h⟩
    · exact hput rfl h
    · cases h
  · unfold countSubkey at h
    split at h
    · cases h
      rfl
    · cases h

/-- Where every value parses, a run that misses no table has room for each of its lines. -/
theorem room_of_inTables {b : ScriptBuf}
    (hp : ∀ s, Seen b s → more s = true → ValueParses s) (h : InTables b) {s : State}
    (hs : Seen b s) (hm : more s = true) : LineRoom s := by
  have hstep := (h s hs).1 hm
  have hd : ∀ s, Seen b s → more s = true → ¬ DefaultLine s := by
    rintro s hs hm ⟨line, key, value, hl, hf, hkv, hr, -, -⟩
    obtain ⟨r, hr'⟩ := hp s hs hm line _ hl hf hkv
    rw [hr] at hr'
    cases hr'
  obtain ⟨S, hS⟩ := seen_holds hd hs
  have hlay := holds_layout hS
  refine ⟨fun line hl hf => ?_, fun line kv hl hf hkv => ?_⟩
  · -- one section more than the table has would be counted behind it
    by_contra hfull
    exact absurd (hstep _ (step_of_refused hl (.full hf (by omega)))) (by decide)
  · obtain ⟨r, hr⟩ := hp s hs hm line kv hl hf hkv
    have hk : kv.1.length ≤ 31 := (getKeyValue_length hkv).1
    cases hstore : storeSubkey s.tables kv.1 kv.2 with
    | error e =>
      have hmiss : e.table = false := hstep _ (step_of_refused hl (.store hf hkv hstore))
      rw [storeSubkey_misses hr hstore] at hmiss
      cases hmiss
    | ok t =>
      obtain ⟨hkey, hval, item, hitem, -⟩ := (storeSubkey_some_eq_ok hr hk).mp hstore
      -- the value is as long as its words
      have hdata := data_length hr
      have hkc := hlay.keyCursor
      have hvc := hlay.valueCursor
      unfold AREA_SIZE at hkey hval
      refine ⟨?_, ?_, ?_⟩
      · intro h0
        rw [h0] at hitem
        cases hitem
      · unfold MAX_RECORDS AREA_SIZE; omega
      · intro r' hr'
        rw [hr, Except.ok.injEq, Option.some.injEq] at hr'
        subst hr'
        unfold MAX_WORDS AREA_SIZE; omega

/-- **Room for every line of a run keeps it inside the tables**; where every value parses,
nothing else does. -/
theorem inTables_room (b : ScriptBuf) :
    ((∀ s, Seen b s → more s = true → LineRoom s) → InTables b) ∧
    ((∀ s, Seen b s → more s = true → ValueParses s) → InTables b →
      ∀ s, Seen b s → more s = true → LineRoom s) :=
  ⟨inTables_of_room, fun hp h _ hs hm => room_of_inTables hp h hs hm⟩

/-- A key line before any section line is counted in `item_table[-1]`. -/
theorem itemTable_missed : ¬ InTables ⟨ascii "k=1\n", 0, [0]⟩ := by
  intro h
  have herr : step (initState ⟨ascii "k=1\n", 0, [0]⟩) = .error (.fault .itemTable) := by
    decide +kernel
  exact absurd ((h _ .refl).1 (by decide) _ herr) (by decide)

end Lichee.Script

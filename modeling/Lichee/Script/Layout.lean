import Lichee.Script.Lines
import Lichee.Script.Store

/- The layout the compiler keeps while it reads a script. After every line the two
   cursors agree with the two counters that later relocate them, the section lengths
   count the records, and every section starts where the records before it end
   (`Layout`); the image then has its four parts one behind the other and every record
   inside the value area (`ImageLayout`).

   All of it hangs on one branch: a value `__get_str2int` refuses goes through
   `default:`, which counts a record but moves the key cursor by 36 bytes, not 40.
   `layoutKept_iff`: a run keeps the layout if and only if it stores no such line. -/
namespace Lichee.Script
open Base

structure Layout (t : Tables) : Prop where
  keyCursor : t.keyData.length = 40 * t.subkeyIdx
  valueCursor : t.valueData.length = 4 * t.valueIdx
  lengths : (t.items.map (·.length)).sum = t.subkeyIdx
  offsets : ∀ i (h : i < t.items.length),
    t.items[i].offset = 10 * ((t.items.take i).map (·.length)).sum

/-- The parts of a compiled image, by the tables it was written from. -/
structure ImageLayout (t : Tables) (img : List UInt8) : Prop where
  size : img.length = 16 + t.items.length * 40 + t.subkeyIdx * 40 + t.valueIdx * 4
  head : img.take 16 = headBytes t.items.length
  table : ∀ i (h : i < t.items.length), readEntry img (mainkeyAddr i) =
    some ⟨padTo 32 t.items[i].name, .ofNat t.items[i].length,
      .ofNat (t.items[i].offset + (4 + t.items.length * 10))⟩
  keys : ∀ j < t.subkeyIdx, ∃ e,
    readEntry img (16 + (t.items.length : Int) * 40 + (j : Int) * 40) = some e ∧
    4 + t.items.length * 10 + t.subkeyIdx * 10 ≤ e.fst.toNat ∧
    e.fst.toNat + (e.snd &&& 0xffff).toNat ≤
      4 + t.items.length * 10 + t.subkeyIdx * 10 + t.valueIdx
  values : img.drop (16 + t.items.length * 40 + t.subkeyIdx * 40) = t.valueData

/-- The line at `s` is a key line that goes through `default:`: `__get_str2int` refuses its
value, and there is a section to count it in and room for its name. -/
def DefaultLine (s : State) : Prop :=
  ∃ line key value, getline s.src s.restLen = .ok line ∧ line.flag = .subkey ∧
    getKeyValue s.src = .ok (some (key, value)) ∧
    getStr2int (padTo VALUE_MAX_LEN value) = .ok none ∧ s.tables.items ≠ [] ∧
    s.tables.keyData.length + ((cstr key).length + 1) ≤ AREA_SIZE

/-- Every line of the run leaves the layout, and so does the image. -/
def LayoutKept (b : ScriptBuf) : Prop :=
  (∀ s, Seen b s → Layout s.tables) ∧
  ∀ s img, Seen b s → more s = false → finish s.tables = .ok img → ImageLayout s.tables img

/-! ## Sections in the tables -/

theorem itemList_lengths (offset : Nat) (S : List Section) :
    ((itemList offset S).map (·.length)).sum = (records S).length := by
  induction S generalizing offset with
  | nil => rfl
  | cons s ss ih =>
    rw [itemList, List.map_cons, List.sum_cons, ih, records_cons, List.length_append]

/-- A list split at a position of it. -/
theorem exists_split {α : Type} {l : List α} {i : Nat} (h : i < l.length) :
    ∃ l₁ a l₂, l = l₁ ++ a :: l₂ ∧ l₁.length = i := by
  refine ⟨l.take i, l[i], l.drop (i + 1), ?_, ?_⟩
  · rw [← List.drop_eq_getElem_cons, List.take_append_drop]
  · rw [List.length_take]; omega

/-- The entry of a section: its records start where those before them end. -/
theorem itemList_split (S₁ : List Section) (s : Section) (S₂ : List Section) :
    itemList 0 (S₁ ++ s :: S₂) =
      itemList 0 S₁ ++ ⟨s.name, s.records.length, 10 * (records S₁).length⟩ ::
        itemList (10 * (records S₁).length + 10 * s.records.length) S₂ := by
  rw [itemList_append, itemList, Nat.zero_add]

theorem holds_layout {t : Tables} {S : List Section} (h : Holds t S) : Layout t := by
  refine ⟨?_, ?_, ?_, ?_⟩
  · rw [h.keyData, h.subkeyIdx, keyBytes_length]; omega
  · rw [h.valueData, h.valueIdx, valueBytes_length]; omega
  · rw [h.items, h.subkeyIdx, itemList_lengths]
  · intro i hi
    have hlen : i < S.length := by rw [h.items, itemList_length] at hi; exact hi
    obtain ⟨S₁, s, S₂, rfl, rfl⟩ := exists_split hlen
    have hl : (itemList 0 S₁).length = S₁.length := itemList_length 0 S₁
    simp only [h.items, itemList_split, ← hl, List.getElem_append_right (Nat.le_refl _),
      List.take_left, itemList_lengths, Nat.sub_self, List.getElem_cons_zero]

/-- What bounds the tables whatever the lines hold. -/
structure Bounded (t : Tables) : Prop where
  items : t.items.length ≤ 128
  values : t.valueData.length ≤ AREA_SIZE

theorem storeSubkey_bounded {t t' : Tables} {key value : List UInt8} (h : Bounded t)
    (hstore : storeSubkey t key value = .ok t') (hk : key.length ≤ 31) : Bounded t' := by
  have hlast : ∀ {l : List Item} {item item' : Item}, l.getLast? = some item →
      l.length ≤ 128 → (l.dropLast ++ [item']).length ≤ 128 := by
    intro l item item' hl hb
    cases l with
    | nil => cases hl
    | cons x xs =>
      simp only [List.length_append, List.length_dropLast, List.length_singleton]; omega
  obtain ⟨r, hr⟩ := storeSubkey_parses hstore
  cases r with
  | none =>
    obtain ⟨-, item, hitem, rfl⟩ := (storeSubkey_none_eq_ok hr hk).mp hstore
    exact ⟨hlast hitem h.items, h.values⟩
  | some r =>
    obtain ⟨-, hv, item, hitem, rfl⟩ := (storeSubkey_some_eq_ok hr hk).mp hstore
    exact ⟨hlast hitem h.items, by simpa using hv⟩

theorem step_bounded {s s' : State} (h : Bounded s.tables) (hstep : step s = .ok s') :
    Bounded s'.tables := by
  obtain ⟨line, -, hs⟩ := step_inv hstep
  cases hs with
  | inert => exact h
  | mainkey _ hroom _ =>
    refine ⟨?_, h.values⟩
    unfold ITEM_MAX_COUNT at hroom
    simp only [storeMainkey, List.length_append, List.length_singleton]; omega
  | blank => exact h
  | subkey _ hkv hstore => exact storeSubkey_bounded h hstore (getKeyValue_length hkv).1

theorem seen_bounded {b : ScriptBuf} {s : State} (h : Seen b s) : Bounded s.tables :=
  h.invariant (I := fun s => Bounded s.tables)
    ⟨by simp [initState, initTables], by simp [initState, initTables]⟩
    fun _ _ hI _ hstep => step_bounded hI hstep

/-! ## The default path -/

/-- A stored key line either goes through `default:` or has a value that parses. -/
theorem stored_cases {s : State} {line : Line} {key value : List UInt8} {t : Tables}
    (hl : getline s.src s.restLen = .ok line) (hf : line.flag = .subkey)
    (hkv : getKeyValue s.src = .ok (some (key, value)))
    (hstore : storeSubkey s.tables key value = .ok t) :
    DefaultLine s ∨ ∃ r, getStr2int (padTo VALUE_MAX_LEN value) = .ok (some r) := by
  have hk := (getKeyValue_length hkv).1
  obtain ⟨r, hr⟩ := storeSubkey_parses hstore
  cases r with
  | none =>
    obtain ⟨hroom, item, hitem, -⟩ := (storeSubkey_none_eq_ok hr hk).mp hstore
    have hne : s.tables.items ≠ [] := by
      intro h0
      rw [h0] at hitem
      cases hitem
    exact .inl ⟨line, key, value, hl, hf, hkv, hr, hne, hroom⟩
  | some r => exact .inr ⟨r, hr⟩

/-- A default line goes through, and moves the key cursor by 36 bytes for its record. -/
theorem defaultLine_step {s : State} (h : DefaultLine s) : ∃ s', step s = .ok s' ∧
    s'.tables.keyData.length = s.tables.keyData.length + 36 ∧
    s'.tables.subkeyIdx = s.tables.subkeyIdx + 1 := by
  obtain ⟨line, key, value, hl, hf, hkv, hr, hne, hroom⟩ := h
  have hk := (getKeyValue_length hkv).1
  have hc := cstr_length_le key
  obtain ⟨item, hitem⟩ : ∃ item, s.tables.items.getLast? = some item :=
    ⟨_, List.getLast?_eq_some_getLast hne⟩
  have hstore := (storeSubkey_none_eq_ok (t := s.tables) hr hk).mpr ⟨hroom, item, hitem, rfl⟩
  refine ⟨_, step_of_stepped hl (.subkey hf hkv hstore), ?_, rfl⟩
  simp only [List.length_append, padTo_length, zeros_length, KEY_MAX_LEN]; omega

/-- An iteration that stores no default line keeps the tables a list of sections. -/
theorem step_holds {s s' : State} {S : List Section} (h : Holds s.tables S)
    (hd : ¬ DefaultLine s) (hstep : step s = .ok s') : ∃ S', Holds s'.tables S' := by
  obtain ⟨line, hl, hs⟩ := step_inv hstep
  cases hs with
  | inert => exact ⟨S, h⟩
  | mainkey _ _ hname =>
    obtain ⟨hn, hh⟩ := fillMainkey_name hname
    exact ⟨_, storeMainkey_holds h hn hh⟩
  | blank => exact ⟨S, h⟩
  | @subkey key value t hf hkv hstore =>
    have hk := (getKeyValue_length hkv).1
    rcases stored_cases hl hf hkv hstore with hdef | ⟨r, hr⟩
    · exact absurd hdef hd
    rcases List.eq_nil_or_concat' S with rfl | ⟨S', sec, rfl⟩
    · -- a key line before any section line has no item to count in
      obtain ⟨-, -, item, hitem, -⟩ := (storeSubkey_some_eq_ok hr hk).mp hstore
      rw [h.items] at hitem
      cases hitem
    · exact ⟨_, storeSubkey_holds h hr hk hstore⟩

/-- A run without default lines always holds a list of sections. -/
theorem seen_holds {b : ScriptBuf}
    (hd : ∀ s, Seen b s → more s = true → ¬ DefaultLine s) {s : State} (h : Seen b s) :
    ∃ S, Holds s.tables S :=
  h.invariant_reach (I := fun s => ∃ S, Holds s.tables S) ⟨[], holds_init⟩
    fun t _ hr ⟨_, hS⟩ hm hstep => step_holds hS (hd t hr hm) hstep

/-! ## The image -/

/-- An image is only written for tables with a section, whose records fit the key area. -/
theorem finish_room {t : Tables} {img : List UInt8} (h : finish t = .ok img) :
    t.items ≠ [] ∧ t.subkeyIdx * 40 ≤ AREA_SIZE := by
  unfold finish at h
  dsimp only at h
  split at h
  · cases h
  · next hne =>
    split at h
    · cases h
    · next hroom => exact ⟨by rintro h0; simp [h0] at hne, by omega⟩

theorem values_encode (S : List Section) :
    (encode S).drop (16 + S.length * 40 + (records S).length * 40) = valueBytes (records S) := by
  have h : (headBytes S.length ++ ((itemList 0 S).flatMap (itemBytes (keyBase S)) ++
      keyBytes (valueBase S) (records S))).length =
      16 + S.length * 40 + (records S).length * 40 := by
    simp only [List.length_append, headBytes_length, itemTable_length, keyBytes_length]; omega
  rw [← h, encode, ← List.append_assoc, ← List.append_assoc, ← List.append_assoc,
    List.drop_left]

theorem holds_imageLayout {t : Tables} {S : List Section} {img : List UInt8} (h : Holds t S)
    (hb : Bounded t) (hfin : finish t = .ok img) : ImageLayout t img := by
  obtain ⟨hne, hfit⟩ := finish_room hfin
  have hlen : t.items.length = S.length := by rw [h.items, itemList_length]
  have hS : S ≠ [] := by
    rintro rfl
    exact hne h.items
  have hvb := hb.values
  have hib := hb.items
  have hvl := valueBytes_length (records S)
  rw [h.valueData] at hvb
  rw [hlen] at hib
  rw [h.subkeyIdx] at hfit
  rw [finish_holds h hS hfit, Except.ok.injEq] at hfin
  subst hfin
  unfold AREA_SIZE at hvb hfit
  have hbase : valueBase S = 4 + S.length * 10 + (records S).length * 10 := rfl
  refine ⟨?_, ?_, ?_, ?_, ?_⟩
  · rw [encode_length, hlen, h.subkeyIdx, h.valueIdx]
  · rw [hlen, encode]
    exact List.take_left' (headBytes_length _)
  · intro i hi
    have hi' : i < S.length := by rw [← hlen]; exact hi
    obtain ⟨S₁, s, S₂, rfl, rfl⟩ := exists_split hi'
    have hl : (itemList 0 S₁).length = S₁.length := itemList_length 0 S₁
    -- the entry of a section is its item, moved by the words before the key table
    rw [readEntry_section, hlen]
    simp only [h.items, itemList_split, ← hl, List.getElem_append_right (Nat.le_refl _),
      Nat.sub_self, List.getElem_cons_zero]
    rfl
  · intro j hj
    rw [h.subkeyIdx] at hj
    obtain ⟨R₁, r, R₂, hR, rfl⟩ := exists_split hj
    -- the value of record `j` stands between those before and behind it
    have hw : valueWords (records S) =
        valueWords R₁ + (r.value.wordCount + valueWords R₂) := by
      rw [hR, valueWords_append, valueWords_cons]
    have hcnt := (pattern_split r.value).2
    rw [hlen, h.subkeyIdx, h.valueIdx]
    refine ⟨_, readEntry_record hR, ?_, ?_⟩
    all_goals
      simp only [UInt32.toNat_ofNat', hcnt]
      rw [Nat.mod_eq_of_lt (by omega)]
      omega
  · rw [hlen, h.subkeyIdx, values_encode, h.valueData]

/-- A script without default lines compiles to the image of a list of sections. -/
theorem compiles_encode {b : ScriptBuf} {img : List UInt8}
    (hd : ∀ s, Seen b s → more s = true → ¬ DefaultLine s) (h : Compiles b img) :
    ∃ S, Fits S ∧ img = encode S := by
  obtain ⟨s, hseen, hfin⟩ := h.finished
  obtain ⟨S, hS⟩ := seen_holds hd hseen
  have hb := seen_bounded hseen
  obtain ⟨hne, hroom⟩ := finish_room hfin
  have hlen : s.tables.items.length = S.length := by rw [hS.items, itemList_length]
  have hSne : S ≠ [] := by
    rintro rfl
    exact hne (List.eq_nil_of_length_eq_zero hlen)
  rw [hS.subkeyIdx] at hroom
  have henc := finish_holds hS hSne hroom
  rw [hfin] at henc
  refine ⟨S, ⟨?_, ?_, ?_⟩, Except.ok.inj henc⟩
  · rw [← hlen]
    exact hb.items
  · unfold AREA_SIZE at hroom
    omega
  · rw [← hS.valueData]
    exact hb.values

/-- **The compiler keeps the layout exactly on the scripts it stores no default line of.** -/
theorem layoutKept_iff (b : ScriptBuf) :
    LayoutKept b ↔ ∀ s, Seen b s → more s = true → ¬ DefaultLine s := by
  refine ⟨?_, ?_⟩
  · rintro ⟨hkept, -⟩ s hs hm hd
    obtain ⟨s', hstep, hkey, hidx⟩ := defaultLine_step hd
    have h₁ := (hkept s hs).keyCursor
    have h₂ := (hkept s' (hs.tail hm hstep)).keyCursor
    omega
  · intro hd
    refine ⟨?_, ?_⟩
    · intro s hs
      obtain ⟨S, hS⟩ := seen_holds hd hs
      exact holds_layout hS
    · intro s img hs _ hfin
      obtain ⟨S, hS⟩ := seen_holds hd hs
      exact holds_imageLayout hS (seen_bounded hs) hfin

/-- A port without attributes: one record is counted and the key cursor stands at byte 36. -/
theorem layout_lost : ¬ LayoutKept ⟨ascii "[leds]\nled=port:PA01\n", 0, [0]⟩ := by
  rintro ⟨hkept, -⟩
  have hrun : (atHead more step 2 (initState ⟨ascii "[leds]\nled=port:PA01\n", 0, [0]⟩)).map
      (fun s => (s.tables.keyData.length, s.tables.subkeyIdx)) = some (36, 1) := by
    decide +kernel
  obtain ⟨s, hs, hpair⟩ := Option.map_eq_some_iff.mp hrun
  obtain ⟨hkey, hidx⟩ := Prod.mk.inj hpair
  have := (hkept s (reach_iff_atHead.mpr ⟨2, hs⟩)).keyCursor
  omega

/-- A script with one section and one integer. -/
def oneInteger : ScriptBuf := ⟨ascii "[a]\nk=1\n", 0, [0]⟩

/-- It has no default line: the run is at two lines, and neither moves the key cursor as one
does. -/
theorem oneInteger_plain : ∀ s, Seen oneInteger s → more s = true → ¬ DefaultLine s := by
  have hfirst : (atHead more step 1 (initState oneInteger)).map
      (·.tables.keyData.length) = some 0 := by decide +kernel
  have hsecond : (atHead more step 2 (initState oneInteger)).map
      (·.tables.keyData.length) = some 40 := by decide +kernel
  have hmore : (atHead more step 2 (initState oneInteger)).map more = some false := by
    decide +kernel
  have hend : (atHead more step 3 (initState oneInteger)).isNone := by decide +kernel
  intro s hs hm hdef
  obtain ⟨n, hn⟩ := reach_iff_atHead.mp hs
  obtain ⟨s', hstep, hkey, -⟩ := defaultLine_step hdef
  have hn' := atHead_snoc hn hm hstep
  generalize initState _ = s₀ at hn hn' hfirst hsecond hmore hend
  match n, hn, hn' with
  | 0, _, hn' =>
    rw [hn', Option.map_some, Option.some.injEq] at hfirst
    omega
  | 1, hn, hn' =>
    rw [hn, Option.map_some, Option.some.injEq] at hfirst
    rw [hn', Option.map_some, Option.some.injEq] at hsecond
    omega
  | 2, hn, _ =>
    rw [hn, Option.map_some, hm] at hmore
    cases hmore
  | n + 3, hn, _ =>
    rw [atHead_none (Option.isNone_iff_eq_none.mp hend) (Nat.le_add_left 3 n)] at hn
    cases hn

end Lichee.Script

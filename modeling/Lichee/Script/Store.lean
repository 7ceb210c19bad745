import Lichee.Script.Image

/- What one line of a script does to the tables of the compiler, once and for all:
   `step_inv` and `step_error_inv` list what an iteration of the line loop can do and what
   can stop it, and `storeSubkey_some`,
   `storeSubkey_none` what a key line stores. The abstract side is the list of sections
   a script has compiled to so far (`Holds`): a section line appends a section
   (`storeMainkey_holds`), a key line whose value parses appends a record to the last one
   (`storeSubkey_holds`), and the image of the tables is `encode` of the sections
   (`finish_holds`). -/
namespace Lichee.Script
open Base

/-- What one iteration does after `__getline` has returned `line`. -/
inductive Stepped (s : State) (line : Line) : State → Prop
  | inert (hf : line.flag = .comment ∨ line.flag = .null) :
      Stepped s line ⟨s.src.drop line.lineLen, s.restLen - line.lineLen, s.tables⟩
  | mainkey {name : List UInt8} (hf : line.flag = .mainkey)
      (hroom : s.tables.items.length < ITEM_MAX_COUNT)
      (hname : fillMainkey s.src = .ok (some name)) :
      Stepped s line
        ⟨s.src.drop line.lineLen, s.restLen - line.lineLen, storeMainkey s.tables name⟩
  | blank (hf : line.flag = .subkey) (hkv : getKeyValue s.src = .ok none) :
      Stepped s line ⟨s.src, s.restLen - line.lineLen, s.tables⟩
  | subkey {key value : List UInt8} {t : Tables} (hf : line.flag = .subkey)
      (hkv : getKeyValue s.src = .ok (some (key, value)))
      (hstore : storeSubkey s.tables key value = .ok t) :
      Stepped s line ⟨s.src.drop line.lineLen, s.restLen - line.lineLen, t⟩

theorem step_inv {s s' : State} (h : step s = .ok s') :
    ∃ line, getline s.src s.restLen = .ok line ∧ Stepped s line s' := by
  unfold step at h
  obtain ⟨line, hl, h⟩ := bind_eq_ok.mp h
  refine ⟨line, hl, ?_⟩
  cases hf : line.flag with
  | comment =>
    simp only [hf, Except.ok.injEq] at h
    subst h
    exact .inert (.inl hf)
  | null =>
    simp only [hf, Except.ok.injEq] at h
    subst h
    exact .inert (.inr hf)
  | mainkey =>
    simp only [hf] at h
    split at h
    · cases h
    · next hroom =>
      obtain ⟨r, hname, h⟩ := bind_eq_ok.mp h
      cases r with
      | none => cases h
      | some name =>
        simp only [Except.ok.injEq] at h
        subst h
        exact .mainkey hf (by omega) hname
  | subkey =>
    simp only [hf] at h
    obtain ⟨r, hkv, h⟩ := bind_eq_ok.mp h
    cases r with
    | none =>
      simp only [Except.ok.injEq] at h
      subst h
      exact .blank hf hkv
    | some kv =>
      obtain ⟨t, hstore, h⟩ := bind_eq_ok.mp h
      simp only [Except.ok.injEq] at h
      subst h
      exact .subkey hf hkv hstore
  | error =>
    simp only [hf] at h
    cases h

theorem step_of_stepped {s s' : State} {line : Line} (hl : getline s.src s.restLen = .ok line)
    (h : Stepped s line s') : step s = .ok s' := by
  unfold step
  rw [hl, ok_bind]
  cases h with
  | inert hf => rcases hf with hf | hf <;> simp only [hf]
  | mainkey hf hroom hname =>
    simp only [hf]
    rw [if_neg (by omega), hname, ok_bind]
  | blank hf hkv =>
    simp only [hf]
    rw [hkv, ok_bind]
  | subkey hf hkv hstore =>
    simp only [hf]
    rw [hkv, ok_bind]
    simp only
    rw [hstore, ok_bind]

/-- What stops an iteration after `__getline` has returned `line`. -/
inductive Refused (s : State) (line : Line) : Stop → Prop
  | line (hf : line.flag = .error) : Refused s line .format
  | full (hf : line.flag = .mainkey) (hfull : ITEM_MAX_COUNT ≤ s.tables.items.length) :
      Refused s line (.fault .itemTable)
  | name (hf : line.flag = .mainkey) (hroom : s.tables.items.length < ITEM_MAX_COUNT)
      (hname : fillMainkey s.src = .ok none) : Refused s line .format
  | nameRead {e : Stop} (hf : line.flag = .mainkey)
      (hroom : s.tables.items.length < ITEM_MAX_COUNT)
      (hname : fillMainkey s.src = .error e) : Refused s line e
  | keyRead {e : Stop} (hf : line.flag = .subkey) (hkv : getKeyValue s.src = .error e) :
      Refused s line e
  | store {key value : List UInt8} {e : Stop} (hf : line.flag = .subkey)
      (hkv : getKeyValue s.src = .ok (some (key, value)))
      (hstore : storeSubkey s.tables key value = .error e) : Refused s line e

theorem step_of_refused {s : State} {line : Line} {e : Stop}
    (hl : getline s.src s.restLen = .ok line) (h : Refused s line e) : step s = .error e := by
  unfold step
  rw [hl, ok_bind]
  cases h with
  | line hf => simp only [hf]
  | full hf hfull =>
    simp only [hf]
    rw [if_pos hfull]
  | name hf hroom hname =>
    simp only [hf]
    rw [if_neg (by omega), hname, ok_bind]
  | nameRead hf hroom hname =>
    simp only [hf]
    rw [if_neg (by omega), hname, error_bind]
  | keyRead hf hkv =>
    simp only [hf]
    rw [hkv, error_bind]
  | store hf hkv hstore =>
    simp only [hf]
    rw [hkv, ok_bind]
    simp only
    rw [hstore, error_bind]

theorem step_error_inv {s : State} {e : Stop} (h : step s = .error e) :
    getline s.src s.restLen = .error e ∨
      ∃ line, getline s.src s.restLen = .ok line ∧ Refused s line e := by
  unfold step at h
  rcases bind_eq_error.mp h with hl | ⟨line, hl, h⟩
  · exact .inl hl
  refine .inr ⟨line, hl, ?_⟩
  cases hf : line.flag with
  | comment =>
    simp only [hf] at h
    cases h
  | null =>
    simp only [hf] at h
    cases h
  | error =>
    simp only [hf, Except.error.injEq] at h
    subst h
    exact .line hf
  | mainkey =>
    simp only [hf] at h
    split at h
    · next hfull =>
      simp only [Except.error.injEq] at h
      subst h
      exact .full hf hfull
    · next hroom =>
      rcases bind_eq_error.mp h with hname | ⟨r, hname, h⟩
      · exact .nameRead hf (by omega) hname
      cases r with
      | none =>
        simp only [Except.error.injEq] at h
        subst h
        exact .name hf (by omega) hname
      | some name => cases h
  | subkey =>
    simp only [hf] at h
    rcases bind_eq_error.mp h with hkv | ⟨r, hkv, h⟩
    · exact .keyRead hf hkv
    cases r with
    | none => cases h
    | some kv =>
      rcases bind_eq_error.mp h with hstore | ⟨t, -, h⟩
      · exact .store hf hkv hstore
      · cases h

/-! ## Key lines -/

/-- The words of a parsed value, as its record counts them. -/
def Str2int.words (r : Str2int) : UInt32 :=
  match r.type with
  | .singleWord => 1
  | .string => r.fmtValue.getD 0 0
  | .gpio => 6

/-- The bytes of a parsed value. -/
def Str2int.data (r : Str2int) : List UInt8 :=
  match r.type with
  | .singleWord => le32 (r.fmtValue.getD 0 0)
  | .string => strncpy (stringFrom r) ((r.fmtValue.getD 0 0).toNat * 4)
  | .gpio => (r.fmtValue.take 6).flatMap le32

theorem storeSubkey_some {t : Tables} {key value : List UInt8} {r : Str2int}
    (h : getStr2int (padTo VALUE_MAX_LEN value) = .ok (some r)) :
    storeSubkey t key value =
      putKey t key >>= fun t => putValue t r.type r.words r.data >>= countSubkey := by
  unfold storeSubkey
  congr 1
  funext t
  rw [h, ok_bind]
  cases ht : r.type <;> simp only [Str2int.words, Str2int.data, ht]

theorem storeSubkey_none {t : Tables} {key value : List UInt8}
    (h : getStr2int (padTo VALUE_MAX_LEN value) = .ok none) :
    storeSubkey t key value =
      putKey t key >>= fun t => countSubkey { t with keyData := t.keyData ++ zeros 4 } := by
  unfold storeSubkey
  congr 1
  funext t
  rw [h, ok_bind]

theorem put_eq_ok {f : Fault} {area bytes area' : List UInt8} {width : Nat} :
    put f area bytes width = .ok area' ↔
      area.length + bytes.length ≤ AREA_SIZE ∧ area' = area ++ padTo width bytes := by
  unfold put
  split
  · next h => simp [h, eq_comm]
  · next h => simp [h]

theorem putKey_eq_ok {t t' : Tables} {key : List UInt8} :
    putKey t key = .ok t' ↔ t.keyData.length + ((cstr key).length + 1) ≤ AREA_SIZE ∧
      t' = { t with keyData := t.keyData ++ padTo KEY_MAX_LEN (cstr key ++ [0]) } := by
  unfold putKey
  rw [bind_eq_ok]
  refine ⟨?_, ?_⟩
  · rintro ⟨kd, h, h'⟩
    obtain ⟨h₁, rfl⟩ := put_eq_ok.mp h
    simp only [Except.ok.injEq] at h'
    exact ⟨by simpa using h₁, h'.symm⟩
  · rintro ⟨h, rfl⟩
    exact ⟨_, put_eq_ok.mpr ⟨by simpa using h, rfl⟩, rfl⟩

theorem putValue_eq_ok {t t' : Tables} {type : DataType} {words : UInt32}
    {bytes : List UInt8} :
    putValue t type words bytes = .ok t' ↔
      t.valueData.length + bytes.length ≤ AREA_SIZE ∧ t.keyData.length + 8 ≤ AREA_SIZE ∧
      t' = { t with
        valueData := t.valueData ++ bytes
        keyData := t.keyData ++ (le32 (.ofNat t.valueIdx) ++ le32 (words ||| type.code <<< 16))
        valueIdx := t.valueIdx + words.toNat } := by
  have h4 : ∀ w, padTo 4 (le32 w) = le32 w := fun w => padTo_self (le32_length w)
  unfold putValue
  rw [bind_eq_ok]
  refine ⟨?_, ?_⟩
  · -- the value, then the offset word and the pattern word of its record
    rintro ⟨vd, h, h'⟩
    obtain ⟨hv, rfl⟩ := put_eq_ok.mp h
    obtain ⟨kd, hk, h'⟩ := bind_eq_ok.mp h'
    obtain ⟨-, rfl⟩ := put_eq_ok.mp hk
    obtain ⟨kd, hk, h'⟩ := bind_eq_ok.mp h'
    obtain ⟨hfit, rfl⟩ := put_eq_ok.mp hk
    simp only [Except.ok.injEq] at h'
    refine ⟨hv, ?_, ?_⟩
    · rw [h4, List.length_append] at hfit
      simp only [le32_length] at hfit; omega
    · rw [← h', padTo_self rfl, h4, h4, List.append_assoc]
  · rintro ⟨hv, hk, rfl⟩
    refine ⟨_, put_eq_ok.mpr ⟨hv, rfl⟩, bind_eq_ok.mpr ⟨_, put_eq_ok.mpr ⟨?_, rfl⟩,
      bind_eq_ok.mpr ⟨_, put_eq_ok.mpr ⟨?_, rfl⟩, ?_⟩⟩⟩
    · simp only [le32_length]; omega
    · simp only [h4, List.length_append, le32_length]; omega
    · rw [padTo_self rfl, h4, h4, List.append_assoc]

theorem countSubkey_eq_ok {t t' : Tables} :
    countSubkey t = .ok t' ↔ ∃ item, t.items.getLast? = some item ∧ t' = { t with
      items := t.items.dropLast ++ [{ item with length := item.length + 1 }]
      subkeyIdx := t.subkeyIdx + 1 } := by
  unfold countSubkey
  cases t.items.getLast? with
  | none => simp
  | some item => simp [eq_comm]

/-! ## The shape of a parsed value -/

/-- What the callers of `__get_str2int` rely on: a string has at most 32 words, a GPIO
description six. -/
structure Str2int.Shape (r : Str2int) : Prop where
  string : r.type = .string → (r.fmtValue.getD 0 0).toNat ≤ 32
  gpio : r.type = .gpio → 6 ≤ r.fmtValue.length

theorem countTo_le {stop : UInt8} {src : List UInt8} {idx n : Nat}
    (h : countTo stop src idx = .ok n) (hidx : idx ≤ 127) : n ≤ 128 := by
  induction src generalizing idx with
  | nil => simp [countTo] at h
  | cons ch src ih =>
    rw [countTo] at h
    split at h
    · cases h; omega
    · split at h
      · cases h; omega
      · exact ih h (by omega)

theorem wordsFor_toNat {n : Nat} (h : n ≤ 128) : (UInt32.ofNat (wordsFor n)).toNat ≤ 32 := by
  have hw : wordsFor n ≤ 32 := by unfold wordsFor; split <;> omega
  rw [UInt32.toNat_ofNat']; omega

theorem gpioFill_length {value v : List UInt32} (h : gpioFill value = some v) :
    v.length = 6 := by
  unfold gpioFill at h
  split at h
  · cases h
    simp only [List.length_append, List.length_replicate]; omega
  · cases h

theorem gpioValue_length {src : List UInt8} {v : List UInt32}
    (h : gpioValue src = .ok (some v)) : v.length = 6 := by
  unfold gpioValue at h
  obtain ⟨r, -, h⟩ := bind_eq_ok.mp h
  cases r with
  | none => cases h
  | some pr =>
    obtain ⟨r, -, h⟩ := bind_eq_ok.mp h
    obtain ⟨r, -, h⟩ := bind_eq_ok.mp h
    cases r with
    | none => cases h
    | some nr =>
      obtain ⟨r, -, h⟩ := bind_eq_ok.mp h
      obtain ⟨r, -, h⟩ := bind_eq_ok.mp h
      cases r with
      | none => cases h
      | some w =>
        simp only [Except.ok.injEq] at h
        exact gpioFill_length h

theorem getStr2int_shape {buf : List UInt8} {r : Str2int}
    (h : getStr2int buf = .ok (some r)) : r.Shape := by
  -- each branch fixes the type; a string's words come from `countTo`
  have single : ∀ ws b, (⟨.singleWord, ws, b⟩ : Str2int).Shape := fun _ _ =>
    ⟨by simp, by simp⟩
  have string : ∀ n f b, n ≤ 128 →
      (⟨.string, [.ofNat (wordsFor n), f, 0, 0, 0, 0, 0, 0], b⟩ : Str2int).Shape :=
    fun n _ _ hn => ⟨fun _ => wordsFor_toNat hn, by simp⟩
  unfold getStr2int at h
  split at h
  · obtain ⟨v, hv, h⟩ := bind_eq_ok.mp h
    cases v with
    | none => cases h
    | some v =>
      simp only [Except.ok.injEq, Option.some.injEq] at h
      subst h
      have := gpioValue_length hv
      exact ⟨by simp, fun _ => by simp only [List.length_append]; omega⟩
  · split at h
    · obtain ⟨n, hn, h⟩ := bind_eq_ok.mp h
      simp only [Except.ok.injEq, Option.some.injEq] at h
      subst h
      exact string n 1 _ (countTo_le hn (by omega))
    · split at h
      · obtain ⟨n, hn, h⟩ := bind_eq_ok.mp h
        split at h
        · simp only [Except.ok.injEq, Option.some.injEq] at h
          subst h
          exact string n 2 _ (countTo_le hn (by omega))
        · cases h
      · split at h
        · obtain ⟨w, -, h⟩ := bind_eq_ok.mp h
          simp only [Except.ok.injEq, Option.some.injEq] at h
          subst h
          exact single _ _
        · split at h
          · split at h
            all_goals
              obtain ⟨w, -, h⟩ := bind_eq_ok.mp h
              simp only [Except.ok.injEq, Option.some.injEq] at h
              subst h
              exact single _ _
          · obtain ⟨n, hn, h⟩ := bind_eq_ok.mp h
            simp only [Except.ok.injEq, Option.some.injEq] at h
            subst h
            exact string n 0 _ (countTo_le hn (by omega))

/-- A parsed value as a value of the image. -/
def Str2int.value (r : Str2int) (h : r.Shape) : Value where
  type := r.type
  data := r.data
  words := by
    cases ht : r.type with
    | singleWord => simp [Str2int.data, ht]
    | string => simp [Str2int.data, ht, strncpy_length]
    | gpio =>
      have := h.gpio ht
      simp [Str2int.data, ht, List.length_flatMap]
  short := by
    cases ht : r.type with
    | singleWord => simp [Str2int.data, ht]
    | string =>
      have := h.string ht
      simp only [Str2int.data, ht, strncpy_length]; omega
    | gpio =>
      have := h.gpio ht
      simp [Str2int.data, ht, List.length_flatMap]; omega
  single := by
    intro ht
    simp [Str2int.data, ht]

theorem words_toNat (r : Str2int) (h : r.Shape) : r.words.toNat = (r.value h).wordCount := by
  unfold Value.wordCount
  show r.words.toNat = r.data.length / 4
  cases ht : r.type with
  | singleWord => simp [Str2int.words, Str2int.data, ht]
  | string => simp [Str2int.words, Str2int.data, ht, strncpy_length]
  | gpio =>
    have := h.gpio ht
    simp only [Str2int.words, Str2int.data, ht, List.length_flatMap, le32_length,
      List.map_const', List.length_take, List.sum_replicate_nat]
    rw [Nat.min_eq_left this]; rfl

theorem data_length {buf : List UInt8} {r : Str2int} (h : getStr2int buf = .ok (some r)) :
    r.data.length = r.words.toNat * 4 := by
  have hshape := getStr2int_shape h
  rw [words_toNat r hshape]
  exact (r.value hshape).data_length

theorem words_pattern (r : Str2int) (h : r.Shape) :
    r.words ||| r.type.code <<< 16 = (r.value h).pattern := by
  rw [Value.pattern, ← words_toNat r h, UInt32.ofNat_toNat]
  rfl

/-! ## The tables hold a list of sections -/

structure Holds (t : Tables) (S : List Section) : Prop where
  items : t.items = itemList 0 S
  keyData : t.keyData = keyBytes 0 (records S)
  valueData : t.valueData = valueBytes (records S)
  subkeyIdx : t.subkeyIdx = (records S).length
  valueIdx : t.valueIdx = valueWords (records S)

theorem holds_init : Holds initTables [] := ⟨rfl, rfl, rfl, rfl, rfl⟩

/-- The table ends with the last section, which begins where the others' records end. -/
theorem itemList_concat (S : List Section) (s : Section) :
    itemList 0 (S ++ [s]) =
      itemList 0 S ++ [⟨s.name, s.records.length, 10 * (records S).length⟩] := by
  rw [itemList_append, itemList, itemList, Nat.zero_add]

/-- A section without records. -/
def newSection (name : List UInt8) (hl : name.length ≤ 31) (hh : name.headD 0 ≠ 0) : Section :=
  ⟨name, [], hl, hh⟩

theorem storeMainkey_holds {t : Tables} {S : List Section} (h : Holds t S)
    {name : List UInt8} (hl : name.length ≤ 31) (hh : name.headD 0 ≠ 0) :
    Holds (storeMainkey t name) (S ++ [newSection name hl hh]) := by
  have hrec : records (S ++ [newSection name hl hh]) = records S := by
    simp [records, newSection]
  have hitems : (storeMainkey t name).items =
      itemList 0 S ++ [⟨name, 0, 10 * (records S).length⟩] := by
    simp only [storeMainkey, h.items]
    rcases List.eq_nil_or_concat' S with rfl | ⟨S', s, rfl⟩
    · rfl
    · rw [itemList_concat, List.getLast?_concat]
      simp only [records_append, List.length_append, records_cons]
      simp [records]; omega
  refine ⟨?_, ?_, ?_, ?_, ?_⟩
  · rw [itemList_concat, hitems]; rfl
  · rw [hrec]; exact h.keyData
  · rw [hrec]; exact h.valueData
  · rw [hrec]; exact h.subkeyIdx
  · rw [hrec]; exact h.valueIdx

/-- A section with one more record. -/
def Section.push (s : Section) (r : Record) : Section :=
  { s with records := s.records ++ [r] }

theorem records_push (S : List Section) (s : Section) (r : Record) :
    records (S ++ [s.push r]) = records (S ++ [s]) ++ [r] := by
  simp [records, Section.push]

/-- The record a key and a parsed value make. -/
def recordOf (key : List UInt8) (r : Str2int) (h : r.Shape) (hk : key.length ≤ 31) : Record where
  key := cstr key
  value := r.value h
  key_short := Nat.le_trans (cstr_length_le key) hk
  key_nul := cstr_nul_free key

theorem padTo_nul {l : List UInt8} {n : Nat} (h : l.length < n) :
    padTo n (l ++ [0]) = padTo n l := by
  have hn : n - l.length = (n - (l.length + 1)) + 1 := by omega
  simp only [padTo, List.length_append, List.length_singleton, List.append_assoc, hn]
  rfl

/-- What a key line with a parsed value leaves, and the room it needs. -/
theorem storeSubkey_some_eq_ok {t t' : Tables} {key value : List UInt8} {r : Str2int}
    (hv : getStr2int (padTo VALUE_MAX_LEN value) = .ok (some r)) (hk : key.length ≤ 31) :
    storeSubkey t key value = .ok t' ↔
      t.keyData.length + 40 ≤ AREA_SIZE ∧ t.valueData.length + r.data.length ≤ AREA_SIZE ∧
      ∃ item, t.items.getLast? = some item ∧ t' = {
        items := t.items.dropLast ++ [{ item with length := item.length + 1 }]
        keyData := t.keyData ++ (padTo KEY_MAX_LEN (cstr key) ++
          (le32 (.ofNat t.valueIdx) ++ le32 (r.words ||| r.type.code <<< 16)))
        valueData := t.valueData ++ r.data
        subkeyIdx := t.subkeyIdx + 1
        valueIdx := t.valueIdx + r.words.toNat } := by
  have hc := cstr_length_le key
  have hpad : padTo KEY_MAX_LEN (cstr key ++ [0]) = padTo KEY_MAX_LEN (cstr key) :=
    padTo_nul (by unfold KEY_MAX_LEN; omega)
  have hlen : (padTo KEY_MAX_LEN (cstr key)).length = 32 :=
    padTo_length_of_le (by unfold KEY_MAX_LEN; omega)
  rw [storeSubkey_some hv, bind_eq_ok]
  refine ⟨?_, ?_⟩
  · rintro ⟨t₁, h₁, h⟩
    obtain ⟨t₂, h₂, h₃⟩ := bind_eq_ok.mp h
    obtain ⟨-, rfl⟩ := putKey_eq_ok.mp h₁
    obtain ⟨hvd, hkd, rfl⟩ := putValue_eq_ok.mp h₂
    obtain ⟨item, hitem, rfl⟩ := countSubkey_eq_ok.mp h₃
    rw [hpad, List.length_append, hlen] at hkd
    refine ⟨hkd, hvd, item, hitem, ?_⟩
    simp only [hpad, List.append_assoc]
  · rintro ⟨hkd, hvd, item, hitem, rfl⟩
    refine ⟨_, putKey_eq_ok.mpr ⟨by omega, rfl⟩, bind_eq_ok.mpr ⟨_, putValue_eq_ok.mpr
      ⟨hvd, ?_, rfl⟩, countSubkey_eq_ok.mpr ⟨item, hitem, ?_⟩⟩⟩
    · rw [hpad, List.length_append, hlen]; omega
    · simp only [hpad, List.append_assoc]

/-- What a key line with a refused value leaves: a counted record, and a key area four bytes
short of one. -/
theorem storeSubkey_none_eq_ok {t t' : Tables} {key value : List UInt8}
    (hv : getStr2int (padTo VALUE_MAX_LEN value) = .ok none) (hk : key.length ≤ 31) :
    storeSubkey t key value = .ok t' ↔
      t.keyData.length + ((cstr key).length + 1) ≤ AREA_SIZE ∧
      ∃ item, t.items.getLast? = some item ∧ t' = { t with
        items := t.items.dropLast ++ [{ item with length := item.length + 1 }]
        keyData := t.keyData ++ (padTo KEY_MAX_LEN (cstr key) ++ zeros 4)
        subkeyIdx := t.subkeyIdx + 1 } := by
  have hc := cstr_length_le key
  have hpad : padTo KEY_MAX_LEN (cstr key ++ [0]) = padTo KEY_MAX_LEN (cstr key) :=
    padTo_nul (by unfold KEY_MAX_LEN; omega)
  rw [storeSubkey_none hv, bind_eq_ok]
  refine ⟨?_, ?_⟩
  · rintro ⟨t₁, h₁, h₂⟩
    obtain ⟨hkd, rfl⟩ := putKey_eq_ok.mp h₁
    obtain ⟨item, hitem, rfl⟩ := countSubkey_eq_ok.mp h₂
    refine ⟨hkd, item, hitem, ?_⟩
    simp only [hpad, List.append_assoc]
  · rintro ⟨hkd, item, hitem, rfl⟩
    refine ⟨_, putKey_eq_ok.mpr ⟨hkd, rfl⟩, countSubkey_eq_ok.mpr ⟨item, hitem, ?_⟩⟩
    simp only [hpad, List.append_assoc]

/-- A line is stored only after its value has been read. -/
theorem storeSubkey_parses {t t' : Tables} {key value : List UInt8}
    (h : storeSubkey t key value = .ok t') :
    ∃ r, getStr2int (padTo VALUE_MAX_LEN value) = .ok r := by
  unfold storeSubkey at h
  obtain ⟨_, -, h⟩ := bind_eq_ok.mp h
  obtain ⟨r, hr, -⟩ := bind_eq_ok.mp h
  exact ⟨r, hr⟩

theorem storeSubkey_holds {t t' : Tables} {S : List Section} {s : Section}
    (h : Holds t (S ++ [s])) {key value : List UInt8} {r : Str2int}
    (hv : getStr2int (padTo VALUE_MAX_LEN value) = .ok (some r)) (hk : key.length ≤ 31)
    (hstore : storeSubkey t key value = .ok t') :
    Holds t' (S ++ [s.push (recordOf key r (getStr2int_shape hv) hk)]) := by
  obtain ⟨-, -, item, hitem, rfl⟩ := (storeSubkey_some_eq_ok hv hk).mp hstore
  rw [h.items, itemList_concat, List.getLast?_concat] at hitem
  cases hitem
  refine ⟨?_, ?_, ?_, ?_, ?_⟩
  · rw [itemList_concat, h.items, itemList_concat, List.dropLast_concat]
    simp [Section.push]
  · rw [records_push, keyBytes_append, ← h.keyData, Nat.zero_add, ← h.valueIdx,
      words_pattern r (getStr2int_shape hv)]
    simp [keyBytes, keyRecord, recordOf, KEY_MAX_LEN]
  · rw [records_push, valueBytes_append, ← h.valueData]
    simp [valueBytes, recordOf, Str2int.value]
  · rw [records_push, List.length_append, ← h.subkeyIdx]; rfl
  · rw [records_push, valueWords_append, valueWords_cons, ← h.valueIdx,
      words_toNat r (getStr2int_shape hv)]
    rfl

/-! ## The image of the tables -/

theorem relocate_keyBytes (delta : Nat) (rs : List Record) (base : Nat) :
    relocate delta rs.length (keyBytes base rs) = keyBytes (base + delta) rs := by
  induction rs generalizing base with
  | nil => rfl
  | cons r rs ih =>
    have hk := r.key_short
    have hp : (padTo 32 r.key).length = 32 := padTo_length_of_le (by omega)
    -- the key, the offset word and the pattern word of the record
    have h32 : ∀ x, List.drop 32 (padTo 32 r.key ++ x) = x := fun x => List.drop_left' hp
    have h36 : ∀ w x, List.drop 36 (padTo 32 r.key ++ (le32 w ++ x)) = x := by
      intro w x
      rw [show 36 = 32 + 4 from rfl, ← List.drop_drop, h32, List.drop_left' (le32_length w)]
    have h40 : ∀ w w' x, List.drop 40 (padTo 32 r.key ++ (le32 w ++ (le32 w' ++ x))) = x := by
      intro w w' x
      rw [show 40 = 36 + 4 from rfl, ← List.drop_drop, h36, List.drop_left' (le32_length w')]
    rw [List.length_cons, relocate, keyBytes, keyBytes, keyRecord, keyRecord]
    simp only [KEY_MAX_LEN, List.append_assoc, h32, h36, h40, word32_le32, Option.getD_some]
    rw [List.take_left' hp, List.take_left' (le32_length _), ih, UInt32.ofNat_add,
      Nat.add_right_comm base]

/-- **The image of tables that hold `S` is `encode S`.** -/
theorem finish_holds {t : Tables} {S : List Section} (h : Holds t S) (hne : S ≠ [])
    (hfit : (records S).length * 40 ≤ AREA_SIZE) : finish t = .ok (encode S) := by
  have hlen : t.items.length = S.length := by rw [h.items, itemList_length]
  have hS : S.length ≠ 0 := fun h0 => hne (List.eq_nil_of_length_eq_zero h0)
  have hk : padTo (t.subkeyIdx * 40) t.keyData = keyBytes 0 (records S) := by
    rw [h.keyData]; exact padTo_self (by rw [keyBytes_length, h.subkeyIdx])
  have hv : padTo (t.valueIdx * 4) t.valueData = valueBytes (records S) := by
    rw [h.valueData]; exact padTo_self (by rw [valueBytes_length, h.valueIdx])
  unfold finish
  simp only [hlen, if_neg hS, h.subkeyIdx, if_neg (Nat.not_lt.mpr hfit)] at hk ⊢
  rw [hk, hv, h.items, relocate_keyBytes, Nat.zero_add]
  rfl

end Lichee.Script

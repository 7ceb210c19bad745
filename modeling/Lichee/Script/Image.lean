import Lichee.Script.Parser
import Lichee.Script.Fetch

/- What a compiled script is for: a list of named sections, each a list of named typed
   values, looked up by section and key. `encode` lays such a list out the way the
   compiler does (head, section table, key table, values, every offset in words from the
   start of the image), and `scriptFetch_encode` reads it back: on an image that fits
   the compiler's tables, `script_fetch` is `lookup`.

   A `Value` and a `Record` carry what every image relies on: a value is a whole number
   of words, 32 at most, and a key is a NUL-free string of at most 31 bytes. -/
namespace Lichee.Script
open Base

/-- A value as it stands in the value area. -/
structure Value where
  type : DataType
  data : List UInt8
  words : data.length % 4 = 0
  short : data.length ≤ 128
  single : type = .singleWord → data.length = 4

def Value.wordCount (v : Value) : Nat := v.data.length / 4

/-- What `script_fetch` puts in `value[count]` for a value. -/
def Value.fetched (v : Value) (count : Nat) : List UInt8 :=
  match v.type with
  | .singleWord => fillValue v.data count
  | .string => fillValue (v.data.take (count * 4)) count
  | .gpio => fillValue [] count

structure Record where
  key : List UInt8
  value : Value
  key_short : key.length ≤ 31
  key_nul : 0 ∉ key

structure Section where
  name : List UInt8
  records : List Record
  name_short : name.length ≤ 31
  name_head : name.headD 0 ≠ 0

def records (S : List Section) : List Record := S.flatMap (·.records)

/-- The value area of a list of records. -/
def valueBytes (rs : List Record) : List UInt8 := rs.flatMap (·.value.data)

def valueWords (rs : List Record) : Nat := (valueBytes rs).length / 4

/-- The length and type word of a record. -/
def Value.pattern (v : Value) : UInt32 := .ofNat v.wordCount ||| v.type.code <<< 16

/-- A key record whose value is `base` words into the image. -/
def keyRecord (base : Nat) (r : Record) : List UInt8 :=
  padTo 32 r.key ++ le32 (.ofNat base) ++ le32 r.value.pattern

/-- The key records of values laid out one after the other from word `base` on. -/
def keyBytes : Nat → List Record → List UInt8
  | _, [] => []
  | base, r :: rs => keyRecord base r ++ keyBytes (base + r.value.wordCount) rs

/-- The section table, for key records laid out from word `offset` on. -/
def itemList : Nat → List Section → List Item
  | _, [] => []
  | offset, s :: ss =>
    ⟨s.name, s.records.length, offset⟩ :: itemList (offset + 10 * s.records.length) ss

/-- The words before the key table. -/
def keyBase (S : List Section) : Nat := 4 + S.length * 10

/-- The words before the value area. -/
def valueBase (S : List Section) : Nat := keyBase S + (records S).length * 10

/-- The image of a list of sections. -/
def encode (S : List Section) : List UInt8 :=
  headBytes S.length ++ ((itemList 0 S).flatMap (itemBytes (keyBase S)) ++
    (keyBytes (valueBase S) (records S) ++ valueBytes (records S)))

/-- The first value a record of a section gives its key. -/
def findRecord (sub : List UInt8) (rs : List Record) : Option Value :=
  (rs.find? fun r => strncmp0 r.key sub 31).map (·.value)

/-- The first value a section so named gives the key, in script order. -/
def lookup (main sub : List UInt8) : List Section → Option Value
  | [] => none
  | s :: ss =>
    if strncmp0 s.name main 31 then
      match findRecord sub s.records with
      | some v => some v
      | none => lookup main sub ss
    else lookup main sub ss

/-- The image fits the three tables of the compiler. -/
structure Fits (S : List Section) : Prop where
  sections : S.length ≤ 128
  keys : (records S).length ≤ 13107
  values : (valueBytes (records S)).length ≤ AREA_SIZE

/-! ## Lengths -/

theorem Value.data_length (v : Value) : v.data.length = v.wordCount * 4 := by
  have hwords := v.words
  unfold Value.wordCount; omega

theorem keyRecord_length (base : Nat) (r : Record) : (keyRecord base r).length = 40 := by
  have := r.key_short
  simp only [keyRecord, List.length_append, padTo_length, le32_length]; omega

theorem keyBytes_length (base : Nat) (rs : List Record) :
    (keyBytes base rs).length = rs.length * 40 := by
  induction rs generalizing base with
  | nil => rfl
  | cons r rs ih =>
    simp only [keyBytes, List.length_append, keyRecord_length, ih, List.length_cons]; omega

theorem valueBytes_cons (r : Record) (rs : List Record) :
    valueBytes (r :: rs) = r.value.data ++ valueBytes rs := by
  simp [valueBytes]

theorem valueBytes_append (rs rs' : List Record) :
    valueBytes (rs ++ rs') = valueBytes rs ++ valueBytes rs' := by
  simp [valueBytes]

/-- Values fill whole words. -/
theorem valueBytes_length (rs : List Record) :
    (valueBytes rs).length = valueWords rs * 4 := by
  have h : (valueBytes rs).length % 4 = 0 := by
    induction rs with
    | nil => rfl
    | cons r rs ih =>
      have := r.value.words
      rw [valueBytes_cons, List.length_append]; omega
  unfold valueWords; omega

theorem valueWords_append (rs rs' : List Record) :
    valueWords (rs ++ rs') = valueWords rs + valueWords rs' := by
  have h₁ := valueBytes_length rs
  have h₂ := valueBytes_length rs'
  simp only [valueWords, valueBytes_append, List.length_append]; omega

theorem valueWords_cons (r : Record) (rs : List Record) :
    valueWords (r :: rs) = r.value.wordCount + valueWords rs := by
  have h₁ := valueBytes_length rs
  have h₂ := r.value.data_length
  simp only [valueWords, valueBytes_cons, List.length_append]; omega

theorem itemBytes_length (delta : Nat) {item : Item} (h : item.name.length ≤ 31) :
    (itemBytes delta item).length = 40 := by
  simp only [itemBytes, List.length_append, padTo_length, le32_length, ITEM_NAME_MAX_LEN]
  omega

theorem itemList_length (offset : Nat) (S : List Section) :
    (itemList offset S).length = S.length := by
  induction S generalizing offset with
  | nil => rfl
  | cons s ss ih => simp only [itemList, List.length_cons, ih]

theorem itemTable_length (delta offset : Nat) (S : List Section) :
    ((itemList offset S).flatMap (itemBytes delta)).length = S.length * 40 := by
  induction S generalizing offset with
  | nil => rfl
  | cons s ss ih =>
    simp only [itemList, List.flatMap_cons, List.length_append, ih, List.length_cons,
      itemBytes_length delta (show (Item.mk s.name s.records.length offset).name.length ≤ 31
        from s.name_short)]
    omega

theorem itemList_append (offset : Nat) (S S' : List Section) :
    itemList offset (S ++ S') =
      itemList offset S ++ itemList (offset + 10 * (records S).length) S' := by
  induction S generalizing offset with
  | nil => simp [itemList, records]
  | cons s ss ih =>
    have hr : (records (s :: ss)).length = s.records.length + (records ss).length := by
      simp [records]
    rw [List.cons_append, itemList, itemList, ih, hr, List.cons_append]
    congr 3; omega

theorem headBytes_length (n : Nat) : (headBytes n).length = 16 := rfl

/-- The four parts of the image follow each other without a gap. -/
theorem encode_length (S : List Section) :
    (encode S).length = 16 + S.length * 40 + (records S).length * 40 +
      valueWords (records S) * 4 := by
  simp only [encode, List.length_append, headBytes_length, itemTable_length, keyBytes_length,
    valueBytes_length]
  omega

/-- Word offsets into the image stay far from the sign bit of an address. -/
theorem Fits.small {S : List Section} (hS : Fits S) :
    valueBase S + valueWords (records S) < 536870912 := by
  have hsections := hS.sections
  have hkeys := hS.keys
  have hvalues := hS.values
  have hwords := valueBytes_length (records S)
  unfold AREA_SIZE at hvalues
  unfold valueBase keyBase
  omega

theorem records_cons (s : Section) (ss : List Section) :
    records (s :: ss) = s.records ++ records ss := by simp [records]

theorem records_append (S S' : List Section) : records (S ++ S') = records S ++ records S' := by
  simp [records]

theorem keyBytes_append (base : Nat) (rs rs' : List Record) :
    keyBytes base (rs ++ rs') = keyBytes base rs ++ keyBytes (base + valueWords rs) rs' := by
  induction rs generalizing base with
  | nil => simp [keyBytes, valueWords, valueBytes]
  | cons r rs ih =>
    rw [List.cons_append, keyBytes, keyBytes, ih, valueWords_cons, List.append_assoc,
      Nat.add_assoc]

/-! ## Reading the image back -/

/-- A word offset below 2^29 becomes the byte address of that word. -/
theorem toInt_shift {n : Nat} (h : n < 536870912) :
    toInt ((UInt32.ofNat n) <<< 2) = (n : Int) * 4 := by
  -- nothing is shifted out, and the sign bit stays clear
  have hs : (UInt32.ofNat n <<< 2).toBitVec.toNat = n * 4 := by
    show (UInt32.ofNat n <<< 2).toNat = n * 4
    have h2 : (2 : UInt32).toNat % 32 = 2 := rfl
    rw [UInt32.toNat_shiftLeft, UInt32.toNat_ofNat', h2, Nat.shiftLeft_eq]
    omega
  rw [toInt, BitVec.toInt_eq_toNat_of_lt (by omega), hs]
  omega

theorem toInt_ofNat {n : Nat} (h : n < 2147483648) : toInt (UInt32.ofNat n) = n := by
  have hs : (UInt32.ofNat n).toBitVec.toNat = n := by
    show (UInt32.ofNat n).toNat = n
    rw [UInt32.toNat_ofNat']; omega
  rw [toInt, BitVec.toInt_eq_toNat_of_lt (by omega), hs]

/-- An entry laid out after `pre` is read back at the address `pre` ends at. -/
theorem readEntry_append (pre : List UInt8) {name : List UInt8} (hn : name.length ≤ 32)
    (a b : UInt32) (rest : List UInt8) {addr : Int} (h : addr = pre.length) :
    readEntry (pre ++ (padTo 32 name ++ le32 a ++ le32 b ++ rest)) addr =
      some ⟨padTo 32 name, a, b⟩ := by
  have hp : (padTo 32 name).length = 32 := padTo_length_of_le hn
  have h₀ : readBytes (pre ++ (padTo 32 name ++ le32 a ++ le32 b ++ rest)) 32 addr =
      some (padTo 32 name) := by
    rw [List.append_assoc, List.append_assoc, readBytes_append _ _ _ (by omega) h,
      List.take_of_length_le (by omega)]
  have h₁ : read32 (pre ++ (padTo 32 name ++ le32 a ++ le32 b ++ rest)) (addr + 32) = some a := by
    have := read32_le32 (pre ++ padTo 32 name) a (le32 b ++ rest)
      (show addr + 32 = _ by simp only [List.length_append, hp]; omega)
    simpa only [List.append_assoc] using this
  have h₂ : read32 (pre ++ (padTo 32 name ++ le32 a ++ le32 b ++ rest)) (addr + 36) = some b := by
    have := read32_le32 (pre ++ padTo 32 name ++ le32 a) b rest
      (show addr + 36 = _ by simp only [List.length_append, hp, le32_length]; omega)
    simpa only [List.append_assoc] using this
  simp only [readEntry, h₀, h₁, h₂, Option.bind_eq_bind, Option.bind_some]

theorem wordCount_le (v : Value) : v.wordCount ≤ 32 := by
  have hshort := v.short
  have hlen := v.data_length
  omega

/-- The word count and the type share a word without touching each other. -/
theorem pattern_split (v : Value) :
    v.pattern >>> 16 &&& 0xffff = v.type.code ∧ (v.pattern &&& 0xffff).toNat = v.wordCount := by
  have h : ∀ n : Fin 33, ∀ t ∈ [DataType.singleWord, .string, .gpio],
      (UInt32.ofNat n ||| t.code <<< 16) >>> 16 &&& 0xffff = t.code ∧
        ((UInt32.ofNat n ||| t.code <<< 16) &&& 0xffff).toNat = n := by
    decide +kernel
  have hv := wordCount_le v
  exact h ⟨v.wordCount, by omega⟩ v.type (by cases v.type <;> simp)

/-- A value laid out after `pre` is fetched through its record. -/
theorem fetchValue_record (v : Value) (pre rest name : List UInt8) {base count : Nat}
    (hb : pre.length = base * 4) (hlt : base < 536870912) (hc : 1 ≤ count) :
    fetchValue (pre ++ (v.data ++ rest)) ⟨name, .ofNat base, v.pattern⟩ count =
      some (v.fetched count) := by
  obtain ⟨hcode, hcnt⟩ := pattern_split v
  have haddr : toInt (UInt32.ofNat base <<< 2) = pre.length := by
    rw [toInt_shift hlt, hb]; omega
  simp only [fetchValue, hcode, hcnt, Value.fetched]
  cases ht : v.type with
  | singleWord =>
    obtain ⟨w, hw⟩ := exists_le32 (v.single ht)
    have hr := read32_le32 pre w rest haddr
    rw [← hw, hr]
    simp [DataType.code, show count ≠ 0 by omega]
  | string =>
    have h1 : DataType.string.code ≠ 1 := by decide
    have hw := v.data_length
    rw [if_neg h1, if_pos (show DataType.string.code = 2 from rfl)]
    by_cases h0 : v.wordCount = 0
    · have hd : v.data = [] := List.eq_nil_of_length_eq_zero (by omega)
      simp [h0, hd]
    · have hlen : min v.wordCount count * 4 ≤ v.data.length := by omega
      rw [if_neg h0, readBytes_append _ _ _ hlen haddr]
      -- the value ends before `count` words, or is cut to them
      have htake : v.data.take (min v.wordCount count * 4) = v.data.take (count * 4) := by
        rcases Nat.le_total v.wordCount count with h | h
        · rw [Nat.min_eq_left h, List.take_of_length_le (by omega),
            List.take_of_length_le (by omega)]
        · rw [Nat.min_eq_right h]
      simp [htake]
  | gpio =>
    have h1 : DataType.gpio.code ≠ 1 := by decide
    have h2 : DataType.gpio.code ≠ 2 := by decide
    simp [h1, h2]

theorem findRecord_cons (sub : List UInt8) (r : Record) (rs : List Record) :
    findRecord sub (r :: rs) =
      if strncmp0 r.key sub 31 then some r.value else findRecord sub rs := by
  unfold findRecord
  rw [List.find?_cons]
  split <;> simp_all

/-- The compared name of an entry is the string it was laid out from. -/
theorem strncmp0_padTo (m : Nat) (name asked : List UInt8) (n : Nat) :
    strncmp0 (padTo m name) asked n = strncmp0 name asked n := by
  simp only [strncmp0, cstr_padTo]

/-- `init_script` finds the section count at the head of the image. -/
theorem initScript_encode {S : List Section} (h : S.length ≤ 128) :
    initScript (encode S) = some ⟨encode S, S.length⟩ := by
  have hr : read32 (encode S) 0 = some (.ofNat S.length) := by
    have := read32_le32 [] (.ofNat S.length)
      (le32 SCRIPT_VERSION0 ++ (le32 SCRIPT_VERSION1 ++ (le32 SCRIPT_VERSION2 ++
        ((itemList 0 S).flatMap (itemBytes (keyBase S)) ++
          (keyBytes (valueBase S) (records S) ++ valueBytes (records S)))))) 
      (show (0 : Int) = ([] : List UInt8).length from rfl)
    simpa only [encode, headBytes, List.append_assoc, List.nil_append] using this
  simp only [initScript, hr, Option.bind_eq_bind, Option.bind_some, toInt_ofNat
    (show S.length < 2147483648 by omega)]

/-- The entry of a section: its name, its record count and where its records start. -/
theorem readEntry_section (S₁ : List Section) (s : Section) (S₂ : List Section) :
    readEntry (encode (S₁ ++ s :: S₂)) (mainkeyAddr S₁.length) =
      some ⟨padTo 32 s.name, .ofNat s.records.length,
        .ofNat (10 * (records S₁).length + keyBase (S₁ ++ s :: S₂))⟩ := by
  have hn := s.name_short
  generalize hS : S₁ ++ s :: S₂ = S
  have htable : (itemList 0 S).flatMap (itemBytes (keyBase S)) =
      (itemList 0 S₁).flatMap (itemBytes (keyBase S)) ++
        (itemBytes (keyBase S) ⟨s.name, s.records.length, 10 * (records S₁).length⟩ ++
          (itemList (10 * (records S₁).length + 10 * s.records.length) S₂).flatMap
            (itemBytes (keyBase S))) := by
    rw [← hS, itemList_append, itemList, List.flatMap_append, List.flatMap_cons, Nat.zero_add]
  have himg : encode S =
      headBytes S.length ++ (itemList 0 S₁).flatMap (itemBytes (keyBase S)) ++
        (padTo 32 s.name ++ le32 (.ofNat s.records.length) ++
          le32 (.ofNat (10 * (records S₁).length + keyBase S)) ++
        ((itemList (10 * (records S₁).length + 10 * s.records.length) S₂).flatMap
          (itemBytes (keyBase S)) ++
          (keyBytes (valueBase S) (records S) ++ valueBytes (records S)))) := by
    rw [encode, htable]
    simp only [itemBytes, ITEM_NAME_MAX_LEN, List.append_assoc]
  rw [himg]
  apply readEntry_append _ (by omega) _ _ _
  simp only [List.length_append, headBytes_length, itemTable_length, mainkeyAddr]; omega

/-- The entry of a record: its key, where its value starts, and the value's pattern. -/
theorem readEntry_record {S : List Section} {R₁ R₂ : List Record} {r : Record}
    (h : records S = R₁ ++ r :: R₂) :
    readEntry (encode S) (16 + (S.length : Int) * 40 + (R₁.length : Int) * 40) =
      some ⟨padTo 32 r.key, .ofNat (valueBase S + valueWords R₁), r.value.pattern⟩ := by
  have hk := r.key_short
  have himg : encode S =
      headBytes S.length ++ (itemList 0 S).flatMap (itemBytes (keyBase S)) ++
        keyBytes (valueBase S) R₁ ++
        (padTo 32 r.key ++ le32 (.ofNat (valueBase S + valueWords R₁)) ++
          le32 r.value.pattern ++
        (keyBytes (valueBase S + valueWords R₁ + r.value.wordCount) R₂ ++
          valueBytes (records S))) := by
    have hkeys : keyBytes (valueBase S) (records S) = keyBytes (valueBase S) R₁ ++
        (keyRecord (valueBase S + valueWords R₁) r ++
          keyBytes (valueBase S + valueWords R₁ + r.value.wordCount) R₂) := by
      rw [h, keyBytes_append, keyBytes]
    rw [encode, hkeys, keyRecord]
    simp only [List.append_assoc]
  rw [himg]
  apply readEntry_append _ (by omega) _ _ _
  simp only [List.length_append, headBytes_length, itemTable_length, keyBytes_length]; omega

/-- What stands in an image before the value of the record behind `R₁`. -/
def beforeValue (S : List Section) (R₁ : List Record) : List UInt8 :=
  headBytes S.length ++ (itemList 0 S).flatMap (itemBytes (keyBase S)) ++
    keyBytes (valueBase S) (records S) ++ valueBytes R₁

theorem beforeValue_length (S : List Section) (R₁ : List Record) :
    (beforeValue S R₁).length = (valueBase S + valueWords R₁) * 4 := by
  simp only [beforeValue, List.length_append, headBytes_length, itemTable_length,
    keyBytes_length, valueBytes_length, valueBase, keyBase]
  omega

/-- The value of a record stands between those before and behind it. -/
theorem encode_value {S : List Section} {R₁ R₂ : List Record} {r : Record}
    (h : records S = R₁ ++ r :: R₂) :
    encode S = beforeValue S R₁ ++ (r.value.data ++ valueBytes R₂) := by
  have hvalues : valueBytes (records S) = valueBytes R₁ ++ (r.value.data ++ valueBytes R₂) := by
    rw [h, valueBytes_append, valueBytes_cons]
  rw [encode, hvalues, beforeValue]
  simp only [List.append_assoc]

/-- The word offset of a record's value is that of its bytes. -/
theorem toInt_valueBase {S : List Section} {R₁ R₂ : List Record} {r : Record} (hS : Fits S)
    (h : records S = R₁ ++ r :: R₂) :
    toInt (UInt32.ofNat (valueBase S + valueWords R₁) <<< 2) = (beforeValue S R₁).length := by
  have hwords : valueWords R₁ ≤ valueWords (records S) := by
    rw [h, valueWords_append]; omega
  have hsmall := hS.small
  rw [toInt_shift (by omega), beforeValue_length]
  push_cast
  omega

/-- The value of a record is fetched. -/
theorem fetchValue_encode {S : List Section} {R₁ R₂ : List Record} {r : Record} (hS : Fits S)
    (h : records S = R₁ ++ r :: R₂) (name : List UInt8) {count : Nat} (hc : 1 ≤ count) :
    fetchValue (encode S) ⟨name, .ofNat (valueBase S + valueWords R₁), r.value.pattern⟩ count =
      some (r.value.fetched count) := by
  have hwords : valueWords R₁ ≤ valueWords (records S) := by
    rw [h, valueWords_append]; omega
  have hsmall := hS.small
  rw [encode_value h]
  exact fetchValue_record r.value _ _ name (beforeValue_length S R₁) (by omega) hc

/-- `script_fetch` inside one section, whose records stand behind `R₁`: the search through
those behind `done`. -/
theorem searchSubkey_records {S : List Section} (hS : Fits S) {sub : List UInt8} {count : Nat}
    (hc : 1 ≤ count) {R₁ R₂ : List Record} :
    ∀ (rs done : List Record), records S = R₁ ++ (done ++ (rs ++ R₂)) →
      searchSubkey (encode S) (.ofNat (10 * R₁.length + keyBase S)) sub count rs.length
        done.length = some ((findRecord sub rs).map (·.fetched count)) := by
  intro rs
  induction rs with
  | nil => intros; rfl
  | cons r rs ih =>
    intro done h
    -- the record at hand, by its place among all of them
    have h' : records S = R₁ ++ done ++ r :: (rs ++ R₂) := by rw [h]; simp
    have hkeys : R₁.length ≤ (records S).length := by
      rw [h, List.length_append]; omega
    have hsmall := hS.small
    have haddr : toInt (UInt32.ofNat (10 * R₁.length + keyBase S) <<< 2) +
        (done.length : Int) * 40 =
        16 + (S.length : Int) * 40 + ((R₁ ++ done).length : Int) * 40 := by
      rw [toInt_shift (by unfold valueBase at hsmall; omega), List.length_append, keyBase]
      push_cast
      omega
    have hrest := ih (done ++ [r]) (by rw [h]; simp)
    rw [List.length_append] at hrest
    rw [List.length_cons, searchSubkey, haddr, readEntry_record h']
    simp only [Option.bind_eq_bind, Option.bind_some, strncmp0_padTo, findRecord_cons]
    split
    · rw [fetchValue_encode hS h' _ hc]
      rfl
    · exact hrest

theorem searchSubkey_section {S₁ S₂ : List Section} {s : Section} (hS : Fits (S₁ ++ s :: S₂))
    {sub : List UInt8} {count : Nat} (hc : 1 ≤ count) :
    searchSubkey (encode (S₁ ++ s :: S₂))
      (.ofNat (10 * (records S₁).length + keyBase (S₁ ++ s :: S₂))) sub count
      s.records.length 0 = some ((findRecord sub s.records).map (·.fetched count)) := by
  have hsplit : records (S₁ ++ s :: S₂) = records S₁ ++ ([] ++ (s.records ++ records S₂)) := by
    rw [records_append, records_cons, List.nil_append]
  exact searchSubkey_records hS hc s.records [] hsplit

/-- The record count of a section is read as the number it is. -/
theorem recordCount {S₁ S₂ : List Section} {s : Section} (hS : Fits (S₁ ++ s :: S₂)) :
    (toInt (.ofNat s.records.length)).toNat = s.records.length := by
  have hkeys := hS.keys
  rw [records_append, records_cons, List.length_append, List.length_append] at hkeys
  rw [toInt_ofNat (by omega)]
  rfl

/-- `script_fetch` over the section table, behind the sections `S₁`. -/
theorem searchMainkey_sections {S : List Section} (hS : Fits S) {main sub : List UInt8}
    {count : Nat} (hc : 1 ≤ count) :
    ∀ (S₂ S₁ : List Section), S = S₁ ++ S₂ →
      searchMainkey (encode S) main sub count S₂.length S₁.length =
        some (match lookup main sub S₂ with
          | some v => ⟨0, v.fetched count⟩
          | none => ⟨-1, fillValue [] count⟩) := by
  intro S₂
  induction S₂ with
  | nil => intros; rfl
  | cons s ss ih =>
    rintro S₁ rfl
    -- what the sections behind this one answer
    have hrest := ih (S₁ ++ [s]) (by simp)
    rw [List.length_append] at hrest
    rw [List.length_cons, searchMainkey, readEntry_section]
    simp only [Option.bind_eq_bind, Option.bind_some, strncmp0_padTo, recordCount hS, lookup]
    split
    · rw [searchSubkey_section hS hc]
      simp only [Option.bind_some]
      cases findRecord sub s.records with
      -- without the key the search goes on to the next section
      | none => exact hrest
      | some v => rfl
    · exact hrest

/-- **The reader on a compiled image is the lookup.** -/
theorem scriptFetch_encode {S : List Section} (hS : Fits S) (main sub : List UInt8)
    {count : Nat} (hc : 1 ≤ count) :
    scriptFetch ⟨encode S, S.length⟩ main sub count =
      some (match lookup main sub S with
        | some v => ⟨0, v.fetched count⟩
        | none => ⟨-1, fillValue [] count⟩) :=
  searchMainkey_sections hS hc S [] rfl

/-- `script_mainkey_name` of a compiled image: the names of the sections in order. -/
theorem scriptMainkeyName_encode (S₁ : List Section) (s : Section) (S₂ : List Section) :
    scriptMainkeyName ⟨encode (S₁ ++ s :: S₂), (S₁ ++ s :: S₂).length⟩ S₁.length =
      some (strncpy s.name 32) := by
  simp only [scriptMainkeyName, readEntry_section, Option.bind_eq_bind, Option.bind_some,
    strncpy, cstr_padTo]

end Lichee.Script

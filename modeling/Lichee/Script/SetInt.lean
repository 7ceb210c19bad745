import Lichee.Script.SwScript

/- The in-place editor of compiled scripts (`script_set_int` in package/sw-tools/src/
   sw_script.c). It finds its record the way `script_get_int` does and stores four bytes
   over the value, in the buffer `main` has read the image into.

   What an edit is for is said of the list of sections the image stands for: `setInt`
   replaces one record by one with another integer. `scriptSetInt_encode` is the step from
   there to the bytes: the tables of the image hold only names, types and word counts, which
   the replaced record keeps, so an edited image is the image of the edited sections.
   `get_after_set` then follows from reading one position of a list after setting another. -/
namespace Lichee.Script
open Base

/-! ## The editor -/

def MAX_SCRIPT_BUF_SIZE : Nat := 64 * 1024

/-- `buf` of `main`: zeroed, then filled with as much of the script file as it has room for. -/
def scriptFileBuf (file : List UInt8) : List UInt8 :=
  padTo MAX_SCRIPT_BUF_SIZE (file.take MAX_SCRIPT_BUF_SIZE)

/-- `script_set_int`: what it returns and the buffer it leaves. -/
def scriptSetInt (img mainKey subKey : List UInt8) (value : Int32) :
    Option (Int × List UInt8) := do
  match ← getSubKey img mainKey subKey with
  | none => some (-1, img)
  | some addr =>
    let sk ← readEntry img addr
    if sk.type = 1 then
      let pdata := toInt (sk.fst <<< 2)
      -- the message it prints shows the old value
      let _ ← read32 img pdata
      let img' ← write32 img value.toUInt32 pdata
      some (0, img')
    else some (-1, img)

/-! ## The sections an image stands for -/

/-- The place, among all the records, of the one the names lead to: the first with the key in
the first section so named. -/
def position (main sub : List UInt8) : List Section → Option Nat
  | [] => none
  | s :: ss =>
    if cstr s.name = cstr main then (s.records.map fun r => cstr r.key).idxOf? (cstr sub)
    else (position main sub ss).map (s.records.length + ·)

/-- The sections with `r` for the record at place `k`. -/
def setRecord (r : Record) : Nat → List Section → List Section
  | _, [] => []
  | k, s :: ss =>
    if k < s.records.length then { s with records := s.records.set k r } :: ss
    else s :: setRecord r (k - s.records.length) ss

/-- An integer as the compiler lays it out. -/
def intValue (v : Int32) : Value where
  type := .singleWord
  data := le32 v.toUInt32
  words := by rw [le32_length]
  short := by rw [le32_length]; decide
  single := fun _ => rfl

def Record.withInt (r : Record) (v : Int32) : Record := { r with value := intValue v }

def foundRecord (main sub : List UInt8) (S : List Section) : Option Record :=
  (position main sub S).bind ((records S)[·]?)

/-- What `script_get_int` is for. -/
def getInt (main sub : List UInt8) (S : List Section) : Int :=
  match foundRecord main sub S with
  | some r => if r.value.type = .singleWord then (word32 r.value.data).elim (-1) toInt else -1
  | none => -1

/-- What `script_get_str` is for: the words it copies, counted as bytes. -/
def getStr (main sub buf : List UInt8) (S : List Section) : Option (Option (List UInt8)) :=
  match foundRecord main sub S with
  | some r =>
    if r.value.type = .string then
      if r.value.wordCount ≤ buf.length then
        some (some (r.value.data.take r.value.wordCount ++ buf.drop r.value.wordCount))
      else none
    else some none
  | none => some none

/-- What `script_set_int` is for. -/
def setInt (main sub : List UInt8) (v : Int32) (S : List Section) : Int × List Section :=
  match position main sub S with
  | some k =>
    match (records S)[k]? with
    | some r => if r.value.type = .singleWord then (0, setRecord (r.withInt v) k S) else (-1, S)
    | none => (-1, S)
  | none => (-1, S)

/-! ## The record found -/

/-- The address of the record at place `k` of an image. -/
def recordAddr (S : List Section) (k : Nat) : Int := 16 + (S.length : Int) * 40 + (k : Int) * 40

section Find
variable {S : List Section} {main sub : List UInt8}

/-- `get_sub_key` inside one section, whose records stand behind `R₁`: the search through
those behind `done`. -/
theorem subkeyFrom_records (hS : Fits S) (name sub : List UInt8) (count : UInt32)
    {R₁ R₂ : List Record} :
    ∀ (rs done : List Record), records S = R₁ ++ (done ++ (rs ++ R₂)) →
      subkeyFrom (encode S) ⟨name, count, .ofNat (10 * R₁.length + keyBase S)⟩
        (strcmp0 sub ·) rs.length done.length =
          some (((rs.map fun r => cstr r.key).idxOf? (cstr sub)).map fun k =>
            recordAddr S (R₁.length + done.length + k)) := by
  intro rs
  induction rs with
  | nil => intros; rfl
  | cons r rs ih =>
    intro done h
    have h' : records S = R₁ ++ done ++ r :: (rs ++ R₂) := by rw [h]; simp
    have hkeys : R₁.length ≤ (records S).length := by
      rw [h, List.length_append]; omega
    have hsmall := hS.small
    have haddr : subkeyAddr ⟨name, count, .ofNat (10 * R₁.length + keyBase S)⟩ done.length =
        recordAddr S (R₁ ++ done).length := by
      rw [subkeyAddr, toInt_shift (by unfold valueBase at hsmall; omega), recordAddr,
        List.length_append, keyBase]
      push_cast
      omega
    -- the records of all sections stand in one table, so an index is a place in it
    have hread : readEntry (encode S) (recordAddr S (R₁ ++ done).length) = _ :=
      readEntry_record h'
    have hnamed : strcmp0 sub (padTo 32 r.key) = (cstr r.key == cstr sub) := by
      rw [strcmp0_field, cstr_padTo]
    have hrest := ih (done ++ [r]) (by rw [h]; simp)
    rw [List.length_append] at hrest
    rw [List.length_cons, subkeyFrom, haddr, hread, List.map_cons, List.idxOf?_cons]
    simp only [Option.bind_eq_bind, Option.bind_some, hnamed]
    cases cstr r.key == cstr sub with
    | true => simp [List.length_append]
    | false =>
      simp only [Bool.false_eq_true, if_false]
      rw [show done.length + 1 = done.length + [r].length from rfl, hrest, Option.map_map]
      congr 2
      funext k
      simp only [Function.comp_apply, List.length_singleton]
      congr 1
      omega

/-- `get_sub_key` over the section table, behind the sections `S₁`. -/
theorem getSubKeyFrom_sections (hS : Fits S) :
    ∀ (S₂ S₁ : List Section), S = S₁ ++ S₂ →
      getSubKeyFrom (encode S) main sub S₂.length S₁.length =
        some ((position main sub S₂).map fun k => recordAddr S ((records S₁).length + k)) := by
  intro S₂
  induction S₂ with
  | nil => intros; rfl
  | cons s ss ih =>
    rintro S₁ rfl
    have hrest := ih (S₁ ++ [s]) (by simp)
    rw [List.length_append] at hrest
    have hsplit : records (S₁ ++ s :: ss) = records S₁ ++ ([] ++ (s.records ++ records ss)) := by
      rw [records_append, records_cons, List.nil_append]
    have hsub := subkeyFrom_records hS (padTo 32 s.name) sub (.ofNat s.records.length)
      s.records [] hsplit
    rw [List.length_nil, Nat.add_zero] at hsub
    by_cases hname : cstr s.name = cstr main
    · have hmk : strcmp0 main (padTo 32 s.name) = true := by
        rw [strcmp0_field, cstr_padTo, hname, beq_self_eq_true]
      rw [position, if_pos hname]
      -- a section of the name without the key ends the search too
      cases hkey : (s.records.map fun r => cstr r.key).idxOf? (cstr sub) with
      | none =>
        rw [hkey, Option.map_none] at hsub
        apply getSubKeyFrom_stays (readEntry_section S₁ s ss) hmk
        rw [recordCount hS]
        exact hsub
      | some k =>
        rw [hkey, Option.map_some] at hsub
        rw [List.length_cons, getSubKeyFrom, readEntry_section]
        simp only [Option.bind_eq_bind, Option.bind_some, hmk, if_true, recordCount hS, hsub,
          Option.map_some]
    · have hmk : strcmp0 main (padTo 32 s.name) = false := by
        rw [strcmp0_field, cstr_padTo, beq_eq_false_iff_ne]
        exact hname
      rw [position, if_neg hname, List.length_cons, getSubKeyFrom, readEntry_section]
      simp only [Option.bind_eq_bind, Option.bind_some, hmk, Bool.false_eq_true, if_false]
      rw [show S₁.length + 1 = S₁.length + [s].length from rfl, hrest, Option.map_map]
      congr 2
      funext k
      rw [Function.comp_apply, records_append, List.length_append]
      simp only [records, List.flatMap_singleton]
      congr 1
      omega

/-- **`get_sub_key` on a compiled image goes to the place the names lead to.** -/
theorem getSubKey_encode (hS : Fits S) :
    getSubKey (encode S) main sub = some ((position main sub S).map (recordAddr S)) := by
  have hsections := hS.sections
  have hhead : read32 (encode S) 0 = some (.ofNat S.length) := by
    rw [encode, headBytes, List.append_assoc, List.append_assoc, List.append_assoc]
    exact read32_le32 [] (.ofNat S.length) _ rfl
  have hcnt : toInt (.ofNat S.length) = S.length := toInt_ofNat (by omega)
  rw [getSubKey, hhead]
  simp only [Option.bind_eq_bind, Option.bind_some, hcnt, Int.toNat_natCast]
  rw [show (0 : Nat) = ([] : List Section).length from rfl,
    getSubKeyFrom_sections hS S [] rfl]
  simp [records]

end Find

/-! ## The buffer around the image -/

section Buffer
variable {img : List UInt8} {main sub : List UInt8}

theorem readEntry_mono {addr : Int} {e : Entry} (h : readEntry img addr = some e)
    (rest : List UInt8) : readEntry (img ++ rest) addr = some e := by
  simp only [readEntry, Option.bind_eq_bind, Option.bind_eq_some_iff] at h ⊢
  obtain ⟨name, hname, fst, hfst, snd, hsnd, he⟩ := h
  exact ⟨name, readBytes_mono hname rest, fst, read32_mono hfst rest, snd,
    read32_mono hsnd rest, he⟩

theorem subkeyFrom_mono {mainkey : Entry} {named : List UInt8 → Bool} (rest : List UInt8)
    {n j : Nat} {r : Option Int} (h : subkeyFrom img mainkey named n j = some r) :
    subkeyFrom (img ++ rest) mainkey named n j = some r := by
  induction n generalizing j with
  | zero => exact h
  | succ n ih =>
    simp only [subkeyFrom, Option.bind_eq_bind, Option.bind_eq_some_iff] at h ⊢
    obtain ⟨e, he, h⟩ := h
    refine ⟨e, readEntry_mono he rest, ?_⟩
    split at h
    · next hnamed => rw [if_pos hnamed, h]
    · next hnamed =>
      rw [if_neg hnamed]
      exact ih h

theorem getSubKeyFrom_mono (rest : List UInt8) {n i : Nat} {r : Option Int}
    (h : getSubKeyFrom img main sub n i = some r) :
    getSubKeyFrom (img ++ rest) main sub n i = some r := by
  induction n generalizing i with
  | zero => exact h
  | succ n ih =>
    simp only [getSubKeyFrom, Option.bind_eq_bind, Option.bind_eq_some_iff] at h ⊢
    obtain ⟨mk, hmk, h⟩ := h
    refine ⟨mk, readEntry_mono hmk rest, ?_⟩
    split at h
    · next hnamed =>
      rw [if_pos hnamed]
      obtain ⟨sk, hsk, h⟩ := Option.bind_eq_some_iff.mp h
      refine Option.bind_eq_some_iff.mpr ⟨sk, subkeyFrom_mono rest hsk, ?_⟩
      cases sk with
      | none => exact ih h
      | some sk => exact h
    · next hnamed =>
      rw [if_neg hnamed]
      exact ih h

/-- A walk that stays in the image does not see what stands behind it. -/
theorem getSubKey_mono (rest : List UInt8) {r : Option Int}
    (h : getSubKey img main sub = some r) : getSubKey (img ++ rest) main sub = some r := by
  simp only [getSubKey, Option.bind_eq_bind, Option.bind_eq_some_iff] at h ⊢
  obtain ⟨cnt, hcnt, h⟩ := h
  exact ⟨cnt, read32_mono hcnt rest, getSubKeyFrom_mono rest h⟩

end Buffer

/-! ## The image is the sections -/

theorem position_lt {main sub : List UInt8} {S : List Section} {k : Nat}
    (h : position main sub S = some k) : k < (records S).length := by
  induction S generalizing k with
  | nil => cases h
  | cons s ss ih =>
    rw [records_cons, List.length_append]
    rw [position] at h
    split at h
    · obtain ⟨hk, -⟩ := List.idxOf?_eq_some_iff.mp h
      rw [List.length_map] at hk
      omega
    · obtain ⟨j, hj, rfl⟩ := Option.map_eq_some_iff.mp h
      have := ih hj
      omega

@[simp] theorem code_eq_one (t : DataType) : t.code = 1 ↔ t = .singleWord := by
  cases t <;> decide

@[simp] theorem code_eq_two (t : DataType) : t.code = 2 ↔ t = .string := by
  cases t <;> decide

section Encode
variable {S : List Section} {main sub : List UInt8}

/-- The record the names lead to, among those before and behind it, as it stands in the
image. -/
structure FoundAt (S : List Section) (main sub rest : List UInt8) (R₁ : List Record) (r : Record)
    (R₂ : List Record) : Prop where
  split : records S = R₁ ++ r :: R₂
  place : position main sub S = some R₁.length
  key : getSubKey (encode S ++ rest) main sub = some (some (recordAddr S R₁.length))
  entry : readEntry (encode S ++ rest) (recordAddr S R₁.length) =
    some ⟨padTo 32 r.key, .ofNat (valueBase S + valueWords R₁), r.value.pattern⟩

theorem exists_foundAt (hS : Fits S) (rest : List UInt8) {k : Nat}
    (h : position main sub S = some k) : ∃ R₁ r R₂, FoundAt S main sub rest R₁ r R₂ := by
  obtain ⟨R₁, r, R₂, hsplit, rfl⟩ := exists_split (position_lt h)
  refine ⟨R₁, r, R₂, hsplit, h, ?_, readEntry_mono (readEntry_record hsplit) rest⟩
  apply getSubKey_mono
  rw [getSubKey_encode hS, h, Option.map_some]

theorem getSubKey_none (hS : Fits S) (rest : List UInt8) (h : position main sub S = none) :
    getSubKey (encode S ++ rest) main sub = some none := by
  apply getSubKey_mono
  rw [getSubKey_encode hS, h, Option.map_none]

namespace FoundAt
variable {rest : List UInt8} {R₁ R₂ : List Record} {r : Record}

theorem getElem (h : FoundAt S main sub rest R₁ r R₂) : (records S)[R₁.length]? = some r := by
  rw [h.split, List.getElem?_append_right (Nat.le_refl _), Nat.sub_self, List.getElem?_cons_zero]

theorem record (h : FoundAt S main sub rest R₁ r R₂) : foundRecord main sub S = some r := by
  rw [foundRecord, h.place]
  exact h.getElem

/-- The buffer, cut at the value of the record. -/
theorem buffer (h : FoundAt S main sub rest R₁ r R₂) :
    encode S ++ rest = beforeValue S R₁ ++ (r.value.data ++ (valueBytes R₂ ++ rest)) := by
  rw [encode_value h.split]
  simp only [List.append_assoc]

/-- An integer is read where the record says. -/
theorem read_int (h : FoundAt S main sub rest R₁ r R₂) (hS : Fits S) {w : UInt32}
    (hw : r.value.data = le32 w) :
    read32 (encode S ++ rest) (toInt (UInt32.ofNat (valueBase S + valueWords R₁) <<< 2)) =
      some w := by
  rw [h.buffer, hw]
  exact read32_le32 _ w _ (toInt_valueBase hS h.split)

/-- The bytes copied of a value are its first ones. -/
theorem copy_bytes (h : FoundAt S main sub rest R₁ r R₂) (hS : Fits S) :
    copied (encode S ++ rest) r.value.wordCount
      (toInt (UInt32.ofNat (valueBase S + valueWords R₁) <<< 2)) =
        some (r.value.data.take r.value.wordCount) := by
  have hlen := r.value.data_length
  rw [copied]
  split
  · next h0 => rw [h0, List.take_zero]
  · rw [h.buffer]
    exact readBytes_append _ _ _ (by omega) (toInt_valueBase hS h.split)

end FoundAt

/-- **`script_get_int` on a compiled image reads the sections.** -/
theorem scriptGetInt_encode (hS : Fits S) (main sub rest : List UInt8) :
    scriptGetInt (encode S ++ rest) main sub = some (getInt main sub S) := by
  cases hpos : position main sub S with
  | none =>
    rw [scriptGetInt, getSubKey_none hS rest hpos, getInt, foundRecord, hpos]
    rfl
  | some k =>
    obtain ⟨R₁, r, R₂, hr⟩ := exists_foundAt hS rest hpos
    rw [scriptGetInt, hr.key, getInt, hr.record]
    simp only [Option.bind_eq_bind, Option.bind_some, hr.entry, Entry.type,
      (pattern_split r.value).1, code_eq_one]
    by_cases htype : r.value.type = .singleWord
    · obtain ⟨w, hw⟩ := exists_le32 (r.value.single htype)
      have hword : word32 r.value.data = some w := by
        have := word32_le32 w []
        rwa [List.append_nil, hw] at this
      rw [if_pos htype, if_pos htype, hr.read_int hS hw.symm, hword]
      rfl
    · rw [if_neg htype, if_neg htype]

/-- **`script_get_str` on a compiled image reads the sections.** -/
theorem scriptGetStr_encode (hS : Fits S) (main sub rest buf : List UInt8) :
    scriptGetStr (encode S ++ rest) main sub buf = getStr main sub buf S := by
  cases hpos : position main sub S with
  | none =>
    rw [scriptGetStr, getSubKey_none hS rest hpos, getStr, foundRecord, hpos]
    rfl
  | some k =>
    obtain ⟨R₁, r, R₂, hr⟩ := exists_foundAt hS rest hpos
    rw [scriptGetStr, hr.key, getStr, hr.record]
    simp only [Option.bind_eq_bind, Option.bind_some, hr.entry, Entry.type, Entry.wordCount,
      (pattern_split r.value).1, (pattern_split r.value).2, code_eq_two, hr.copy_bytes hS]
    have hlen : (r.value.data.take r.value.wordCount).length = r.value.wordCount := by
      have := r.value.data_length
      rw [List.length_take]
      omega
    rw [hlen]

end Encode

/-! ## One record replaced -/

section Set
variable {S : List Section} {r r' : Record} {R₁ R₂ : List Record} {main sub : List UInt8}

theorem records_setRecord (r : Record) (k : Nat) (S : List Section) :
    records (setRecord r k S) = (records S).set k r := by
  induction S generalizing k with
  | nil => rfl
  | cons s ss ih =>
    rw [setRecord, records_cons, List.set_append]
    split
    · rw [records_cons]
    · rw [records_cons, ih]

theorem setRecord_length (r : Record) (k : Nat) (S : List Section) :
    (setRecord r k S).length = S.length := by
  induction S generalizing k with
  | nil => rfl
  | cons s ss ih =>
    rw [setRecord]
    split
    · rw [List.length_cons, List.length_cons]
    · rw [List.length_cons, List.length_cons, ih]

/-- The section table does not see the records. -/
theorem itemList_setRecord (r : Record) (k offset : Nat) (S : List Section) :
    itemList offset (setRecord r k S) = itemList offset S := by
  induction S generalizing k offset with
  | nil => rfl
  | cons s ss ih =>
    rw [setRecord]
    split
    · rw [itemList, itemList, List.length_set]
    · rw [itemList, itemList, ih]

theorem records_setRecord_split (h : records S = R₁ ++ r :: R₂) :
    records (setRecord r' R₁.length S) = R₁ ++ r' :: R₂ := by
  rw [records_setRecord, h, List.set_append_right _ _ (Nat.le_refl _), Nat.sub_self,
    List.set_cons_zero]

/-- An element replaced by one with the same image leaves the images. -/
theorem map_set_same {α β : Type} {f : α → β} {l : List α} {k : Nat} {a b : α}
    (h : l[k]? = some a) (hf : f b = f a) : (l.set k b).map f = l.map f := by
  induction l generalizing k with
  | nil => rfl
  | cons x l ih =>
    cases k with
    | zero =>
      obtain rfl : x = a := Option.some.inj h
      rw [List.set_cons_zero, List.map_cons, List.map_cons, hf]
    | succ k => rw [List.set_cons_succ, List.map_cons, List.map_cons, ih h]

/-- The places only depend on the names. -/
theorem position_setRecord {k : Nat} (h : (records S)[k]? = some r) (hkey : r'.key = r.key) :
    position main sub (setRecord r' k S) = position main sub S := by
  induction S generalizing k with
  | nil => rfl
  | cons s ss ih =>
    rw [records_cons, List.getElem?_append] at h
    rw [setRecord]
    split
    · next hk =>
      rw [if_pos hk] at h
      have hkeys : ((s.records.set k r').map fun r => cstr r.key) =
          s.records.map fun r => cstr r.key := map_set_same h (congrArg cstr hkey)
      simp only [position, hkeys, List.length_set]
    · next hk =>
      rw [if_neg hk] at h
      rw [position, position, ih h]

/-- The key table keeps what the record keeps. -/
theorem keyBytes_replace (base : Nat) (hkey : r'.key = r.key)
    (hpattern : r'.value.pattern = r.value.pattern)
    (hcount : r'.value.wordCount = r.value.wordCount) :
    keyBytes base (R₁ ++ r' :: R₂) = keyBytes base (R₁ ++ r :: R₂) := by
  rw [keyBytes_append, keyBytes_append, keyBytes, keyBytes, keyRecord, keyRecord, hkey, hpattern,
    hcount]

/-- So the image only differs in the value. -/
theorem encode_setRecord (h : records S = R₁ ++ r :: R₂) (hkey : r'.key = r.key)
    (hpattern : r'.value.pattern = r.value.pattern)
    (hcount : r'.value.wordCount = r.value.wordCount) :
    encode (setRecord r' R₁.length S) = beforeValue S R₁ ++ (r'.value.data ++ valueBytes R₂) := by
  have hrecords : records (setRecord r' R₁.length S) = R₁ ++ r' :: R₂ :=
    records_setRecord_split h
  have hbase : valueBase (setRecord r' R₁.length S) = valueBase S := by
    rw [valueBase, valueBase, keyBase, keyBase, setRecord_length, records_setRecord,
      List.length_set]
  have hbefore : beforeValue (setRecord r' R₁.length S) R₁ = beforeValue S R₁ := by
    rw [beforeValue, beforeValue, hbase, setRecord_length, itemList_setRecord, keyBase, keyBase,
      setRecord_length, hrecords, keyBytes_replace _ hkey hpattern hcount, ← h]
  rw [encode_value hrecords, hbefore]

theorem fits_setRecord (hS : Fits S) (h : records S = R₁ ++ r :: R₂)
    (hcount : r'.value.wordCount = r.value.wordCount) : Fits (setRecord r' R₁.length S) := by
  refine ⟨?_, ?_, ?_⟩
  · rw [setRecord_length]
    exact hS.sections
  · rw [records_setRecord, List.length_set]
    exact hS.keys
  · have hvalues := hS.values
    have h₁ := r.value.data_length
    have h₂ := r'.value.data_length
    rw [h, valueBytes_append, valueBytes_cons, List.length_append, List.length_append] at hvalues
    rw [records_setRecord_split h, valueBytes_append, valueBytes_cons, List.length_append,
      List.length_append]
    omega

end Set

/-! ## Get after set, of the sections -/

section Sections
variable {S : List Section} {main sub main' sub' : List UInt8} {v : Int32}

/-- What `setInt` can do. -/
theorem setInt_cases (main sub : List UInt8) (v : Int32) (S : List Section) :
    setInt main sub v S = (-1, S) ∨
      ∃ k r, position main sub S = some k ∧ (records S)[k]? = some r ∧
        r.value.type = .singleWord ∧ setInt main sub v S = (0, setRecord (r.withInt v) k S) := by
  rw [setInt]
  cases hpos : position main sub S with
  | none => exact .inl rfl
  | some k =>
    cases hr : (records S)[k]? with
    | none => exact .inl (by simp only [hr])
    | some r =>
      simp only [hr]
      by_cases htype : r.value.type = .singleWord
      · exact .inr ⟨k, r, rfl, hr, htype, if_pos htype⟩
      · exact .inl (if_neg htype)

/-- It sets the record that the names lead to, if this is an integer. -/
theorem setInt_zero_iff : (setInt main sub v S).1 = 0 ↔
    ∃ r, foundRecord main sub S = some r ∧ r.value.type = .singleWord := by
  rw [setInt, foundRecord]
  cases position main sub S with
  | none => simp
  | some k =>
    cases hr : (records S)[k]? with
    | none => simp [hr]
    | some r =>
      by_cases htype : r.value.type = .singleWord <;> simp [hr, htype]

/-- An integer other than -1 is that of a record. -/
theorem getInt_found (h : getInt main sub S ≠ -1) :
    ∃ r, foundRecord main sub S = some r ∧ r.value.type = .singleWord := by
  rw [getInt] at h
  cases hr : foundRecord main sub S with
  | none =>
    rw [hr] at h
    exact absurd rfl h
  | some r =>
    simp only [hr] at h
    by_cases htype : r.value.type = .singleWord
    · exact ⟨r, rfl, htype⟩
    · exact absurd (if_neg htype) h

/-- Two pairs of names that lead to one place are the same. -/
theorem position_inj {k : Nat} (h : position main sub S = some k)
    (h' : position main' sub' S = some k) : cstr main' = cstr main ∧ cstr sub' = cstr sub := by
  induction S generalizing k with
  | nil => cases h
  | cons s ss ih =>
    have hin : ∀ {l : List (List UInt8)} {x : List UInt8}, l.idxOf? x = some k →
        l[k]? = some x := by
      intro l x hx
      obtain ⟨hlt, hget, -⟩ := List.idxOf?_eq_some_iff.mp hx
      rw [List.getElem?_eq_getElem hlt, hget]
    have hlt : ∀ {x : List UInt8}, (s.records.map fun r => cstr r.key).idxOf? x = some k →
        k < s.records.length := by
      intro x hx
      obtain ⟨hlt, -⟩ := List.idxOf?_eq_some_iff.mp hx
      rwa [List.length_map] at hlt
    rw [position] at h h'
    by_cases hm : cstr s.name = cstr main
    · rw [if_pos hm] at h
      by_cases hm' : cstr s.name = cstr main'
      · rw [if_pos hm'] at h'
        exact ⟨hm'.symm.trans hm, Option.some.inj ((hin h').symm.trans (hin h))⟩
      · rw [if_neg hm'] at h'
        obtain ⟨j, -, hj⟩ := Option.map_eq_some_iff.mp h'
        have := hlt h
        omega
    · rw [if_neg hm] at h
      obtain ⟨j, hpos, hj⟩ := Option.map_eq_some_iff.mp h
      -- a place in the section of one pair is no place behind that section
      by_cases hm' : cstr s.name = cstr main'
      · rw [if_pos hm'] at h'
        have := hlt h'
        omega
      · rw [if_neg hm'] at h'
        obtain ⟨j', hpos', hj'⟩ := Option.map_eq_some_iff.mp h'
        obtain rfl : j = j' := by omega
        exact ih hpos hpos'

/-- A name leads to the record that replaced the one it led to, or to the one it led to. -/
theorem foundRecord_setRecord {k : Nat} {r : Record} (hpos : position main sub S = some k)
    (hr : (records S)[k]? = some r) :
    foundRecord main' sub' (setRecord (r.withInt v) k S) =
      if position main' sub' S = some k then some (r.withInt v) else foundRecord main' sub' S := by
  have hplace : position main' sub' (setRecord (r.withInt v) k S) = position main' sub' S :=
    position_setRecord hr rfl
  rw [foundRecord, foundRecord, hplace, records_setRecord]
  split
  · next hsame =>
    rw [hsame, Option.bind_some, List.getElem?_set_self (position_lt hpos)]
  · next hother =>
    cases hpos' : position main' sub' S with
    | none => rfl
    | some k' =>
      rw [Option.bind_some, Option.bind_some, List.getElem?_set_ne]
      rintro rfl
      exact hother hpos'

theorem getInt_withInt {r : Record} (h : foundRecord main sub S = some (r.withInt v)) :
    getInt main sub S = v.toInt := by
  have hword : word32 (le32 v.toUInt32) = some v.toUInt32 := by
    have := word32_le32 v.toUInt32 []
    rwa [List.append_nil] at this
  rw [getInt, h]
  show (word32 (le32 v.toUInt32)).elim (-1) toInt = v.toInt
  rw [hword]
  rfl

/-- The integer set is the one read back. -/
theorem getInt_setInt_self (h : (setInt main sub v S).1 = 0) :
    getInt main sub (setInt main sub v S).2 = v.toInt := by
  rcases setInt_cases main sub v S with hfail | ⟨k, r, hpos, hr, -, hset⟩
  · rw [hfail] at h
    cases h
  · rw [hset]
    apply getInt_withInt (r := r)
    rw [foundRecord_setRecord hpos hr, if_pos hpos]

/-- Under other names the same integer is read as before. -/
theorem getInt_setInt_of_ne (hne : (cstr main', cstr sub') ≠ (cstr main, cstr sub)) :
    getInt main' sub' (setInt main sub v S).2 = getInt main' sub' S := by
  rcases setInt_cases main sub v S with hfail | ⟨k, r, hpos, hr, -, hset⟩
  · rw [hfail]
  · have hother : position main' sub' S ≠ some k := by
      intro hpos'
      obtain ⟨h₁, h₂⟩ := position_inj hpos hpos'
      exact hne (by rw [h₁, h₂])
    rw [hset, getInt, getInt, foundRecord_setRecord hpos hr, if_neg hother]

/-- Every string is read as before. -/
theorem getStr_setInt (main' sub' buf : List UInt8) :
    getStr main' sub' buf (setInt main sub v S).2 = getStr main' sub' buf S := by
  rcases setInt_cases main sub v S with hfail | ⟨k, r, hpos, hr, htype, hset⟩
  · rw [hfail]
  · rw [hset, getStr, getStr, foundRecord_setRecord hpos hr]
    by_cases hpos' : position main' sub' S = some k
    · have hold : foundRecord main' sub' S = some r := by
        rw [foundRecord, hpos']
        exact hr
      have hint : r.value.type ≠ .string := by
        rw [htype]
        decide
      have hnew : (r.withInt v).value.type ≠ .string := by
        show DataType.singleWord ≠ .string
        decide
      rw [if_pos hpos', hold]
      simp only [if_neg hint, if_neg hnew]
    · rw [if_neg hpos']

end Sections

/-! ## Get after set, of the image -/

section Image
variable {S : List Section}

/-- An integer keeps its length and type. -/
theorem withInt_kept {r : Record} (v : Int32) (h : r.value.type = .singleWord) :
    (r.withInt v).value.wordCount = r.value.wordCount ∧
      (r.withInt v).value.pattern = r.value.pattern := by
  have hcount : (r.withInt v).value.wordCount = r.value.wordCount := by
    rw [Value.wordCount, Value.wordCount, r.value.single h]
    rfl
  refine ⟨hcount, ?_⟩
  rw [Value.pattern, Value.pattern, hcount, h]
  rfl

theorem encode_withInt {R₁ R₂ : List Record} {r : Record} (v : Int32)
    (h : records S = R₁ ++ r :: R₂) (htype : r.value.type = .singleWord) :
    encode (setRecord (r.withInt v) R₁.length S) =
      beforeValue S R₁ ++ (le32 v.toUInt32 ++ valueBytes R₂) :=
  encode_setRecord h rfl (withInt_kept v htype).2 (withInt_kept v htype).1

theorem fits_setInt (hS : Fits S) (main sub : List UInt8) (v : Int32) :
    Fits (setInt main sub v S).2 := by
  rcases setInt_cases main sub v S with hfail | ⟨k, r, hpos, hr, htype, hset⟩
  · rw [hfail]
    exact hS
  · obtain ⟨R₁, r₀, R₂, hfound⟩ := exists_foundAt hS [] hpos
    obtain rfl : k = R₁.length := Option.some.inj (hpos.symm.trans hfound.place)
    obtain rfl : r = r₀ := Option.some.inj (hr.symm.trans hfound.getElem)
    rw [hset]
    exact fits_setRecord hS hfound.split (withInt_kept v htype).1

/-- **`script_set_int` on a compiled image sets the integer of the sections.** -/
theorem scriptSetInt_encode (hS : Fits S) (main sub rest : List UInt8) (v : Int32) :
    scriptSetInt (encode S ++ rest) main sub v =
      some ((setInt main sub v S).1, encode (setInt main sub v S).2 ++ rest) := by
  cases hpos : position main sub S with
  | none =>
    rw [scriptSetInt, getSubKey_none hS rest hpos, setInt, hpos]
    rfl
  | some k =>
    obtain ⟨R₁, r, R₂, hr⟩ := exists_foundAt hS rest hpos
    have hset : setInt main sub v S = if r.value.type = .singleWord then
        (0, setRecord (r.withInt v) R₁.length S) else (-1, S) := by
      rw [setInt, hr.place]
      simp only [hr.getElem]
    rw [scriptSetInt, hr.key, hset]
    simp only [Option.bind_eq_bind, Option.bind_some, hr.entry, Entry.type,
      (pattern_split r.value).1, code_eq_one]
    by_cases htype : r.value.type = .singleWord
    · obtain ⟨w, hw⟩ := exists_le32 (r.value.single htype)
      have hwrite : write32 (encode S ++ rest) v.toUInt32
          (toInt (UInt32.ofNat (valueBase S + valueWords R₁) <<< 2)) =
            some (beforeValue S R₁ ++ (le32 v.toUInt32 ++ (valueBytes R₂ ++ rest))) := by
        rw [hr.buffer, ← hw]
        exact write32_le32 _ w _ _ (toInt_valueBase hS hr.split)
      rw [if_pos htype, if_pos htype, hr.read_int hS hw.symm, hwrite,
        encode_withInt v hr.split htype]
      simp only [Option.bind_some, List.append_assoc]
    · rw [if_neg htype, if_neg htype]

/-- Two buffers that differ in four bytes of an image of length `size` at most. -/
def SameOffSlot (size : Nat) (buf buf' : List UInt8) : Prop :=
  buf'.length = buf.length ∧ ∃ slot, slot + 4 ≤ size ∧
    ∀ i, i < slot ∨ slot + 4 ≤ i → buf'[i]? = buf[i]?

theorem sameOffSlot_le32 (pre post : List UInt8) (w w' : UInt32) {size : Nat}
    (h : pre.length + 4 ≤ size) :
    SameOffSlot size (pre ++ (le32 w ++ post)) (pre ++ (le32 w' ++ post)) := by
  refine ⟨by simp, pre.length, h, fun i hi => ?_⟩
  rcases hi with hi | hi
  · rw [List.getElem?_append_left hi, List.getElem?_append_left hi]
  · have hbehind : ∀ x : UInt32, (pre ++ (le32 x ++ post))[i]? = post[i - pre.length - 4]? := by
      intro x
      rw [List.getElem?_append_right (by omega),
        List.getElem?_append_right (by rw [le32_length]; omega), le32_length]
    rw [hbehind, hbehind]

/-- A successful edit changes one word at most. -/
theorem sameOffSlot_setInt (hS : Fits S) {main sub : List UInt8} {v : Int32}
    (h : (setInt main sub v S).1 = 0) (rest : List UInt8) :
    SameOffSlot (encode S).length (encode S ++ rest)
      (encode (setInt main sub v S).2 ++ rest) := by
  rcases setInt_cases main sub v S with hfail | ⟨k, r, hpos, hr, htype, hset⟩
  · rw [hfail] at h
    cases h
  · obtain ⟨R₁, r₀, R₂, hfound⟩ := exists_foundAt hS rest hpos
    obtain rfl : k = R₁.length := Option.some.inj (hpos.symm.trans hfound.place)
    obtain rfl : r = r₀ := Option.some.inj (hr.symm.trans hfound.getElem)
    obtain ⟨w, hw⟩ := exists_le32 (r.value.single htype)
    have hroom : (beforeValue S R₁).length + 4 ≤ (encode S).length := by
      rw [encode_value hfound.split, ← hw]
      simp only [List.length_append, le32_length]
      omega
    rw [hset, hfound.buffer, ← hw, encode_withInt v hfound.split htype]
    simp only [List.append_assoc]
    exact sameOffSlot_le32 _ _ w _ hroom

end Image

/-- What an edit of the integer under two names does to the buffer of an image. -/
structure IntStored (size : Nat) (buf buf' main sub : List UInt8) (v : Int32) : Prop where
  slot : SameOffSlot size buf buf'
  get : scriptGetInt buf' main sub = some v.toInt
  others : ∀ main' sub', (cstr main', cstr sub') ≠ (cstr main, cstr sub) →
    ∃ n, scriptGetInt buf main' sub' = some n ∧ scriptGetInt buf' main' sub' = some n
  strings : ∀ main' sub' dst,
    scriptGetStr buf' main' sub' dst = scriptGetStr buf main' sub' dst

/-- **Get after set.** On the image of a script that stores no default line, in the buffer of
the editor: `script_set_int` returns 0 where the names lead to an integer and has then stored the
new one, which is read back under its names alone; elsewhere it returns -1 and leaves the buffer. (A
script with more than 128 sections, or a key line before the first one, has no image: its
compilation leaves the section table.) -/
theorem get_after_set {b : ScriptBuf} {img : List UInt8} (h : Compiles b img)
    (hd : ∀ s, Seen b s → more s = true → ¬ DefaultLine s)
    (hsize : img.length ≤ MAX_SCRIPT_BUF_SIZE) (main sub : List UInt8) (v : Int32) :
    ∃ S, Fits S ∧ img = encode S ∧
    ∃ ret buf', scriptSetInt (scriptFileBuf img) main sub v = some (ret, buf') ∧
      (ret = 0 ↔ ∃ r, foundRecord main sub S = some r ∧ r.value.type = .singleWord) ∧
      (ret = 0 ∧ IntStored img.length (scriptFileBuf img) buf' main sub v ∨
        ret = -1 ∧ buf' = scriptFileBuf img) := by
  obtain ⟨S, hS, rfl⟩ := compiles_encode hd h
  have hbuf : scriptFileBuf (encode S) =
      encode S ++ zeros (MAX_SCRIPT_BUF_SIZE - (encode S).length) := by
    rw [scriptFileBuf, List.take_of_length_le hsize, padTo]
  generalize zeros (MAX_SCRIPT_BUF_SIZE - (encode S).length) = rest at hbuf
  have hS' := fits_setInt hS main sub v
  rw [hbuf]
  refine ⟨S, hS, rfl, _, _, scriptSetInt_encode hS main sub rest v, setInt_zero_iff, ?_⟩
  by_cases hret : (setInt main sub v S).1 = 0
  · refine .inl ⟨hret, sameOffSlot_setInt hS hret rest, ?_, ?_, ?_⟩
    · rw [scriptGetInt_encode hS', getInt_setInt_self hret]
    · intro main' sub' hne
      refine ⟨getInt main' sub' S, scriptGetInt_encode hS main' sub' rest, ?_⟩
      rw [scriptGetInt_encode hS', getInt_setInt_of_ne hne]
    · intro main' sub' dst
      rw [scriptGetStr_encode hS', scriptGetStr_encode hS, getStr_setInt]
  · rcases setInt_cases main sub v S with hfail | ⟨k, r, -, -, -, hset⟩
    · rw [hfail]
      exact .inr ⟨rfl, rfl⟩
    · rw [hset] at hret
      exact absurd rfl hret

/-- The integer of a script with one section and one key is set to 7, and read back. -/
theorem get_after_set_first : ∃ img, Compiles ⟨ascii "[a]\nk=1\n", 0, [0]⟩ img ∧
    ∃ buf', scriptSetInt (scriptFileBuf img) (ascii "a") (ascii "k") 7 = some (0, buf') ∧
      scriptGetInt buf' (ascii "a") (ascii "k") = some 7 := by
  have hrun : ((parseScript 2 oneInteger).bind Except.toOption).map (fun img =>
      (img.length, scriptGetInt img (ascii "a") (ascii "k"))) = some (100, some 1) := by
    decide +kernel
  obtain ⟨img, himg, hpair⟩ := Option.map_eq_some_iff.mp hrun
  obtain ⟨hlen, hget⟩ := Prod.mk.inj hpair
  obtain ⟨S, hS, rfl, ret, buf', hset, hzero, hcases⟩ := get_after_set (compiles_of_run himg)
    oneInteger_plain (by rw [hlen]; decide) (ascii "a") (ascii "k") 7
  -- the names lead to an integer, for its value 1 is read
  have hone := scriptGetInt_encode hS (ascii "a") (ascii "k") []
  rw [List.append_nil, hget, Option.some.injEq] at hone
  have hret : ret = 0 := hzero.mpr (getInt_found (by rw [← hone]; decide))
  subst hret
  rcases hcases with ⟨-, hstored⟩ | ⟨hne, -⟩
  · exact ⟨_, compiles_of_run himg, buf', hset, hstored.get⟩
  · cases hne

end Lichee.Script

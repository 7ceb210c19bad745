import Lichee.Script.Layout

/- What every compiled image keeps, values refused or not. A refused value leaves its record
   four bytes short, and the records behind it are then read from inside their neighbours;
   but a reader that walks the tables of the image never leaves them, and every name it
   compares ends inside its field (`compiles_tabled`). -/
namespace Lichee.Script
open Base

/-! ## Names in the key area -/

/-- Among any 32 bytes in a row there is a NUL. -/
def Dotted (l : List UInt8) : Prop := ∀ k, k + 32 ≤ l.length → ∃ i < 32, l[k + i]? = some 0

/-- The last byte, if there is one, is a NUL. -/
def Ended (l : List UInt8) : Prop := ∀ c, l.getLast? = some c → c = 0

theorem Dotted.append {l m : List UInt8} (hl : Dotted l) (hend : Ended l)
    (hm : m[31]? = some 0) (hlen : m.length ≤ 63) : Dotted (l ++ m) := by
  intro k hk
  rw [List.length_append] at hk
  by_cases hin : k + 32 ≤ l.length
  · obtain ⟨i, hi, hz⟩ := hl k hin
    exact ⟨i, hi, by rw [List.getElem?_append_left (by omega), hz]⟩
  by_cases hstart : k < l.length
  · -- the bytes run over the end of `l`, and that is a NUL
    have hlast : l[l.length - 1]? = l.getLast? := List.getLast?_eq_getElem?.symm
    have hsome : l[l.length - 1]? = some l[l.length - 1] := List.getElem?_eq_getElem (by omega)
    refine ⟨l.length - 1 - k, by omega, ?_⟩
    rw [show k + (l.length - 1 - k) = l.length - 1 by omega,
      List.getElem?_append_left (by omega), hsome, hend l[l.length - 1] (by rw [← hlast, hsome])]
  · refine ⟨l.length + 31 - k, by omega, ?_⟩
    rw [show k + (l.length + 31 - k) = l.length + 31 by omega,
      List.getElem?_append_right (by omega), Nat.add_sub_cancel_left, hm]

theorem Dotted.padTo {l : List UInt8} (hl : Dotted l) (n : Nat) : Dotted (padTo n l) := by
  intro k hk
  by_cases hin : k + 32 ≤ l.length
  · obtain ⟨i, hi, hz⟩ := hl k hin
    exact ⟨i, hi, by rw [Base.padTo, List.getElem?_append_left (by omega), hz]⟩
  · refine ⟨31, by omega, ?_⟩
    rw [padTo_length] at hk
    rw [Base.padTo, List.getElem?_append_right (by omega), zeros,
      List.getElem?_replicate_of_lt (by omega)]

theorem Dotted.nul_mem {l : List UInt8} (hl : Dotted l) {k : Nat} (hk : k + 32 ≤ l.length) :
    0 ∈ (l.drop k).take 32 := by
  obtain ⟨i, hi, hz⟩ := hl k hk
  apply List.mem_of_getElem? (i := i)
  rw [List.getElem?_take_of_lt hi, List.getElem?_drop, hz]

/-! ## The tables -/

/-- What the tables keep whatever the lines hold: every section has its records among those
counted, the last one up to the end, and no name runs out of its field. -/
structure Counted (t : Tables) : Prop where
  names : ∀ item ∈ t.items, item.name.length ≤ 31
  spans : ∀ item ∈ t.items, ∃ k, item.offset = 10 * k ∧ k + item.length ≤ t.subkeyIdx
  last : ∀ item, t.items.getLast? = some item →
    item.offset + item.length * 10 = 10 * t.subkeyIdx
  first : t.items = [] → t.subkeyIdx = 0
  keys : t.keyData.length ≤ t.subkeyIdx * 40
  dotted : Dotted t.keyData
  ended : Ended t.keyData

theorem initTables_counted : Counted initTables where
  names := by simp [initTables]
  spans := by simp [initTables]
  last := by simp [initTables]
  first _ := rfl
  keys := Nat.le_refl 0
  dotted k hk := absurd hk (by simp [initTables])
  ended := by simp [Ended, initTables]

theorem storeMainkey_counted {t : Tables} (h : Counted t) {name : List UInt8}
    (hname : name.length ≤ 31) : Counted (storeMainkey t name) := by
  -- a new section starts behind the records of the one before
  have hstore : storeMainkey t name =
      { t with items := t.items ++ [⟨name, 0, 10 * t.subkeyIdx⟩] } := by
    unfold storeMainkey
    cases hl : t.items.getLast? with
    | none => rw [h.first (List.getLast?_eq_none_iff.mp hl)]
    | some prev => rw [← h.last prev hl]
  rw [hstore]
  refine ⟨fun item hi => ?_, fun item hi => ?_, fun item hi => ?_, ?_, h.keys, h.dotted, h.ended⟩
  · rcases List.mem_append.mp hi with hi | hi
    · exact h.names item hi
    · rw [List.mem_singleton.mp hi]
      exact hname
  · rcases List.mem_append.mp hi with hi | hi
    · exact h.spans item hi
    · rw [List.mem_singleton.mp hi]
      exact ⟨t.subkeyIdx, rfl, Nat.le_refl _⟩
  · rw [List.getLast?_concat, Option.some.injEq] at hi
    rw [← hi]
    simp
  · simp

/-- One more record, of any length up to a whole one. -/
theorem Counted.record {t : Tables} (h : Counted t) {item : Item} {key tail : List UInt8}
    (hitem : t.items.getLast? = some item) (hkey : key.length ≤ 31) (htail : tail.length ≤ 8)
    (hend : tail.getLast? = some 0) (valueData : List UInt8) (valueIdx : Nat) :
    Counted {
      items := t.items.dropLast ++ [{ item with length := item.length + 1 }]
      keyData := t.keyData ++ (padTo KEY_MAX_LEN key ++ tail)
      valueData := valueData
      subkeyIdx := t.subkeyIdx + 1
      valueIdx := valueIdx } := by
  have hmem : item ∈ t.items := List.mem_of_getLast? hitem
  have hlast := h.last item hitem
  have hpad : (padTo KEY_MAX_LEN key).length = 32 :=
    padTo_length_of_le (by unfold KEY_MAX_LEN; omega)
  refine ⟨?_, ?_, ?_, ?_, ?_, ?_, ?_⟩
  · intro i hi
    rcases List.mem_append.mp hi with hi | hi
    · exact h.names i (List.dropLast_subset _ hi)
    · rw [List.mem_singleton.mp hi]
      exact h.names item hmem
  · intro i hi
    rcases List.mem_append.mp hi with hi | hi
    · obtain ⟨k, hk, hle⟩ := h.spans i (List.dropLast_subset _ hi)
      exact ⟨k, hk, Nat.le_succ_of_le hle⟩
    · obtain ⟨k, hk, hle⟩ := h.spans item hmem
      rw [List.mem_singleton.mp hi]
      exact ⟨k, hk, Nat.succ_le_succ hle⟩
  · intro i hi
    rw [List.getLast?_concat, Option.some.injEq] at hi
    rw [← hi]
    show item.offset + (item.length + 1) * 10 = 10 * (t.subkeyIdx + 1)
    omega
  · simp
  · have := h.keys
    show (t.keyData ++ (padTo KEY_MAX_LEN key ++ tail)).length ≤ (t.subkeyIdx + 1) * 40
    simp only [List.length_append, hpad]
    omega
  · apply h.dotted.append h.ended
    · rw [List.getElem?_append_left (by omega), padTo, List.getElem?_append_right hkey, zeros,
        List.getElem?_replicate_of_lt (by unfold KEY_MAX_LEN; omega)]
    · rw [List.length_append, hpad]; omega
  · intro c hc
    have hne : padTo KEY_MAX_LEN key ++ tail ≠ [] := by
      intro h0
      rw [(List.append_eq_nil_iff.mp h0).2] at hend
      cases hend
    show c = 0
    rw [show (t.keyData ++ (padTo KEY_MAX_LEN key ++ tail)).getLast? = some 0 by
      rw [← List.append_assoc, List.getLast?_append, hend]; rfl] at hc
    exact (Option.some.inj hc).symm

/-- A value has few words, so the last byte of its pattern is a NUL. -/
theorem pattern_last (v : Value) : (le32 v.pattern).getLast? = some 0 := by
  have h : ∀ n : Fin 33, ∀ t ∈ [DataType.singleWord, .string, .gpio],
      (le32 (UInt32.ofNat n ||| t.code <<< 16)).getLast? = some 0 := by
    decide +kernel
  have hv := wordCount_le v
  exact h ⟨v.wordCount, by omega⟩ v.type (by cases v.type <;> simp)

theorem storeSubkey_counted {t t' : Tables} (h : Counted t) {key value : List UInt8}
    (hk : key.length ≤ 31) (hstore : storeSubkey t key value = .ok t') : Counted t' := by
  have hkey : (cstr key).length ≤ 31 := Nat.le_trans (cstr_length_le key) hk
  obtain ⟨r, hr⟩ := storeSubkey_parses hstore
  cases r with
  | none =>
    obtain ⟨-, item, hitem, rfl⟩ := (storeSubkey_none_eq_ok hr hk).mp hstore
    exact h.record hitem hkey (by simp) rfl t.valueData t.valueIdx
  | some r =>
    obtain ⟨-, -, item, hitem, rfl⟩ := (storeSubkey_some_eq_ok hr hk).mp hstore
    apply h.record hitem hkey
    · simp
    · rw [words_pattern r (getStr2int_shape hr), List.getLast?_append, pattern_last]
      rfl

theorem step_counted {s s' : State} (h : Counted s.tables) (hstep : step s = .ok s') :
    Counted s'.tables := by
  obtain ⟨line, -, hs⟩ := step_inv hstep
  cases hs with
  | inert => exact h
  | mainkey _ _ hname => exact storeMainkey_counted h (fillMainkey_name hname).1
  | blank => exact h
  | subkey _ hkv hstore => exact storeSubkey_counted h (getKeyValue_length hkv).1 hstore

theorem seen_counted {b : ScriptBuf} {s : State} (h : Seen b s) : Counted s.tables :=
  h.invariant (I := fun s => Counted s.tables) initTables_counted
    fun _ _ hI _ hstep => step_counted hI hstep

/-! ## The image -/

/-- The address of record `j` of a section. -/
def subkeyAddr (mainkey : Entry) (j : Nat) : Int := toInt (mainkey.snd <<< 2) + (j : Int) * 40

/-- A reader that walks the tables of an image with `n` sections stays inside it, and every
name it reads ends inside its field. -/
structure Tabled (img : List UInt8) (n : Nat) : Prop where
  head : read32 img 0 = some (.ofNat n)
  count : n ≤ 128
  sections : ∀ i < n, ∃ mainkey, readEntry img (mainkeyAddr i) = some mainkey ∧
    0 ∈ mainkey.name ∧ ∀ j < (toInt mainkey.fst).toNat,
      ∃ subkey, readEntry img (subkeyAddr mainkey j) = some subkey ∧ 0 ∈ subkey.name

/-- The relocation keeps the names: record `j` is read back with the name that stood there. -/
theorem readEntry_relocate (delta : Nat) {n j : Nat} {area : List UInt8}
    (h : area.length = n * 40) (hj : j < n) (pre post : List UInt8) {addr : Int}
    (haddr : addr = pre.length + (j : Int) * 40) :
    ∃ e, readEntry (pre ++ (relocate delta n area ++ post)) addr = some e ∧
      e.name = (area.drop (j * 40)).take 32 := by
  induction n generalizing j area pre addr with
  | zero => exact absurd hj (Nat.not_lt_zero j)
  | succ n ih =>
    -- the first record: its name, the relocated word, the pattern
    obtain ⟨w, hw⟩ := exists_le32 (l := (area.drop 36).take 4) (by
      rw [List.length_take, List.length_drop]; omega)
    have hname : (area.take 32).length = 32 := by rw [List.length_take]; omega
    have hsplit : relocate delta (n + 1) area = padTo 32 (area.take 32) ++
        le32 (((word32 (area.drop 32)).getD 0) + .ofNat delta) ++ le32 w ++
          relocate delta n (area.drop 40) := by
      rw [relocate, hw, padTo_self hname]
      rfl
    cases j with
    | zero =>
      have he := readEntry_append pre (Nat.le_of_eq hname)
        (((word32 (area.drop 32)).getD 0) + .ofNat delta) w
        (relocate delta n (area.drop 40) ++ post)
        (show addr = pre.length by rw [haddr]; simp)
      refine ⟨⟨padTo 32 (area.take 32), ((word32 (area.drop 32)).getD 0) + .ofNat delta, w⟩, ?_, ?_⟩
      · rw [← he, hsplit]
        simp only [List.append_assoc]
      · rw [Nat.zero_mul, List.drop_zero]
        exact padTo_self hname
    | succ j =>
      have hrest : (area.drop 40).length = n * 40 := by rw [List.length_drop]; omega
      obtain ⟨e, he, hnm⟩ := ih hrest (Nat.lt_of_succ_lt_succ hj)
        (pre ++ (padTo 32 (area.take 32) ++
          le32 (((word32 (area.drop 32)).getD 0) + .ofNat delta) ++ le32 w))
        (show addr = _ by
          simp only [haddr, List.length_append, padTo_self hname, hname, le32_length]
          push_cast
          ring)
      refine ⟨e, ?_, ?_⟩
      · rw [← he, hsplit]
        simp only [List.append_assoc]
      · rw [hnm, List.drop_drop]
        congr 2
        ring

/-- The entry of a section, read back from the table of an image. -/
theorem readEntry_item {items : List Item} (delta : Nat) (hnames : ∀ item ∈ items,
    item.name.length ≤ 31) (pre post : List UInt8) {i : Nat} (hi : i < items.length) {addr : Int}
    (haddr : addr = pre.length + (i : Int) * 40) :
    readEntry (pre ++ (items.flatMap (itemBytes delta) ++ post)) addr =
      some ⟨padTo 32 items[i].name, .ofNat items[i].length,
        .ofNat (items[i].offset + delta)⟩ := by
  obtain ⟨l₁, item, l₂, rfl, rfl⟩ := exists_split hi
  have hl₁ : (l₁.flatMap (itemBytes delta)).length = l₁.length * 40 := by
    rw [List.length_flatMap, List.map_congr_left fun x hx =>
      itemBytes_length delta (hnames x (List.mem_append_left _ hx))]
    simp
  have hname : item.name.length ≤ 32 := by
    have := hnames item (by simp)
    omega
  have hitem := readEntry_append (pre ++ l₁.flatMap (itemBytes delta)) hname
    (.ofNat item.length) (.ofNat (item.offset + delta)) (l₂.flatMap (itemBytes delta) ++ post)
    (show addr = _ by rw [haddr, List.length_append, hl₁]; push_cast; ring)
  rw [List.getElem_append_right (Nat.le_refl _), List.flatMap_append, List.flatMap_cons]
  simp only [Nat.sub_self, List.getElem_cons_zero, ← hitem, itemBytes, ITEM_NAME_MAX_LEN,
    List.append_assoc]

/-- **Every compiled image can be walked.** -/
theorem finish_tabled {t : Tables} {img : List UInt8} (h : Counted t) (hb : Bounded t)
    (hfin : finish t = .ok img) : Tabled img t.items.length := by
  obtain ⟨hne, hroom⟩ := finish_room hfin
  have hitems := hb.items
  have hpos : t.items.length ≠ 0 := fun h0 => hne (List.eq_nil_of_length_eq_zero h0)
  have himg : img = headBytes t.items.length ++
      (t.items.flatMap (itemBytes (4 + t.items.length * 10)) ++
        (relocate (4 + t.items.length * 10 + t.subkeyIdx * 10) t.subkeyIdx
          (padTo (t.subkeyIdx * 40) t.keyData) ++ padTo (t.valueIdx * 4) t.valueData)) := by
    unfold finish at hfin
    simp only [if_neg hpos, if_neg (Nat.not_lt.mpr hroom), Except.ok.injEq] at hfin
    exact hfin.symm
  have harea : (padTo (t.subkeyIdx * 40) t.keyData).length = t.subkeyIdx * 40 :=
    padTo_length_of_le h.keys
  have htable : (t.items.flatMap (itemBytes (4 + t.items.length * 10))).length =
      t.items.length * 40 := by
    rw [List.length_flatMap, List.map_congr_left fun x hx =>
      itemBytes_length _ (h.names x hx)]
    simp
  unfold AREA_SIZE at hroom
  refine ⟨?_, hitems, fun i hi => ?_⟩
  · rw [himg, headBytes, List.append_assoc, List.append_assoc, List.append_assoc]
    exact read32_le32 [] (.ofNat t.items.length) _ rfl
  · have hmem : t.items[i] ∈ t.items := List.getElem_mem hi
    obtain ⟨k, hk, hle⟩ := h.spans _ hmem
    refine ⟨_, by rw [himg]; exact readEntry_item _ h.names _ _ hi rfl, ?_, fun j hj => ?_⟩
    · have := h.names _ hmem
      exact List.mem_append_right _ (List.mem_replicate.mpr ⟨by omega, rfl⟩)
    -- record `j` of the section is record `k + j` of the table
    · rw [toInt_ofNat (by omega), Int.toNat_natCast] at hj
      have haddr : subkeyAddr ⟨padTo 32 t.items[i].name, .ofNat t.items[i].length,
          .ofNat (t.items[i].offset + (4 + t.items.length * 10))⟩ j =
          ((headBytes t.items.length ++
            t.items.flatMap (itemBytes (4 + t.items.length * 10))).length : Int) +
            ((k + j : Nat) : Int) * 40 := by
        rw [subkeyAddr, toInt_shift (by omega), List.length_append, htable, hk,
          headBytes_length]
        push_cast
        ring
      obtain ⟨e, he, hname⟩ := readEntry_relocate (4 + t.items.length * 10 + t.subkeyIdx * 10)
        harea (show k + j < t.subkeyIdx by omega) _ (padTo (t.valueIdx * 4) t.valueData) haddr
      refine ⟨e, ?_, ?_⟩
      · rw [himg, ← he]
        simp only [List.append_assoc]
      · rw [hname]
        exact (h.dotted.padTo _).nul_mem (by rw [harea]; omega)

theorem compiles_tabled {b : ScriptBuf} {img : List UInt8} (h : Compiles b img) :
    ∃ n, Tabled img n := by
  obtain ⟨s, hseen, hfin⟩ := h.finished
  exact ⟨_, finish_tabled (seen_counted hseen) (seen_bounded hseen) hfin⟩

end Lichee.Script

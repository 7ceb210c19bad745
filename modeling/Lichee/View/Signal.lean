import Lichee.Script.Fetch
import Lichee.View.Wifi

/- The signal bars of a hot point (`wifi_hot_point_proccess` of df_view.c). The entry of a new
   hot point is allocated and not cleared: the two texts are copied to its front, and five tests
   of the level set the number of bars, each for levels of its own. A level that passes none of
   them leaves what the memory held before, if that is a number of bars; and a text of sixteen
   bytes or more is copied over that number and what is behind it (`signal_bars_iff`). -/
namespace Lichee.View
open Base Script

/-! ## The entry -/

/-- `sizeof(struct one_wifi_hot_point)`, with pointers of four bytes. -/
def HOT_POINT_SIZE : Nat := 116

/-- The block `malloc` gives for a `struct one_wifi_hot_point`, with what it held before. -/
structure HotPointBlock where
  mem : List UInt8
  size : HOT_POINT_SIZE ≤ mem.length
  deriving DecidableEq, Repr

/-- The sizes of `ssid` and `single_level_db`. -/
def SSID_SIZE : Nat := 64
def LEVEL_DB_SIZE : Nat := 16

/-- Where `single_level_db` and `single_level` are in the entry. -/
def LEVEL_DB : Nat := SSID_SIZE
def SINGLE_LEVEL : Nat := SSID_SIZE + LEVEL_DB_SIZE

/-- `strcpy(mem + pos, text)` -/
def strcpyAt (mem : List UInt8) (pos : Nat) (text : List UInt8) : Except WifiFault (List UInt8) :=
  if pos + (text.length + 1) > mem.length then .error .overflow
  else .ok (mem.take pos ++ ((text ++ [0]) ++ mem.drop (pos + (text.length + 1))))

/-- The `int` at a place of the block. -/
def intAt (mem : List UInt8) (pos : Nat) : Except WifiFault Int :=
  match read32 mem pos with
  | some w => .ok (toInt w)
  | none => .error .overflow

/-- The word an `int` is held in. -/
def wordOf (v : Int) : UInt32 := .ofBitVec (.ofInt 32 v)

def setIntAt (mem : List UInt8) (pos : Nat) (v : Int) : Except WifiFault (List UInt8) :=
  match write32 mem (wordOf v) pos with
  | some mem => .ok mem
  | none => .error .overflow

/-- `p_hot_point->single_level` behind the tests of `single`. -/
def singleLevel (single level : Int) : Int :=
  let level := if single < 0 ∧ single ≥ -55 then 5 else level
  let level := if single < -55 ∧ single ≥ -60 then 4 else level
  let level := if single < -60 ∧ single ≥ -65 then 3 else level
  let level := if single < -65 ∧ single ≥ -70 then 2 else level
  let level := if single < -70 ∧ single ≥ -75 then 1 else level
  if level > 5 ∨ level < 1 then 1 else level

/-- The two copies, and the level set. -/
def fillHotPoint (block : HotPointBlock) (ssid single_level_db : List UInt8) :
    Except WifiFault (List UInt8) := do
  let mem ← strcpyAt block.mem 0 ssid
  let mem ← strcpyAt mem LEVEL_DB single_level_db
  let single := atoi single_level_db
  let level ← intAt mem SINGLE_LEVEL
  setIntAt mem SINGLE_LEVEL (singleLevel single level)

/-! ## What is asked of it -/

/-- The bars of a level. -/
def barsOf (single : Int) : Int :=
  if -55 ≤ single ∧ single ≤ -1 then 5
  else if -60 ≤ single ∧ single ≤ -56 then 4
  else if -65 ≤ single ∧ single ≤ -61 then 3
  else if -70 ≤ single ∧ single ≤ -66 then 2
  else 1

/-- A line accepted as a new hot point. -/
structure Accepted (w : Wifi) (line : PipeLine) (ssid single_level_db : List UInt8) : Prop where
  point : isSeparator line.val = false
  fields : wifiFields line.val = some (ssid, single_level_db)
  new : ssid ∉ w.list.map (·.ssid)
  room : w.total_point_have_displayed < w.total_point_can_be_display

/-- The texts fit their fields, and whatever the block held, the entry gets the bars of its
level. -/
structure BarsStored (ssid single_level_db : List UInt8) : Prop where
  ssidFits : ssid.length + 1 ≤ SSID_SIZE
  levelFits : single_level_db.length + 1 ≤ LEVEL_DB_SIZE
  level : ∀ block : HotPointBlock, ∃ mem, fillHotPoint block ssid single_level_db = .ok mem ∧
    intAt mem SINGLE_LEVEL = .ok (barsOf (atoi single_level_db))

/-! ## The level -/

/-- The tests cover the levels from -75 to -1; any other one leaves a number of bars that was
there, and puts a single one in the place of what is none. -/
theorem singleLevel_eq (single level : Int) : singleLevel single level =
    if -75 ≤ single ∧ single < 0 then barsOf single
    else if 1 ≤ level ∧ level ≤ 5 then level else 1 := by
  unfold singleLevel barsOf
  grind

/-- The bars are those of the level, unless no test covers it and the memory held others. -/
theorem singleLevel_barsOf (single level : Int) : singleLevel single level = barsOf single ↔
    (-75 ≤ single ∧ single < 0) ∨ ¬ (2 ≤ level ∧ level ≤ 5) := by
  rw [singleLevel_eq]
  unfold barsOf
  grind

/-! ## The block -/

theorem toInt_wordOf {v : Int} (h : -2147483648 ≤ v ∧ v < 2147483648) : toInt (wordOf v) = v := by
  rw [toInt, wordOf, BitVec.toInt_ofInt]
  exact Int.bmod_eq_of_le (by omega) (by omega)

/-- A copy leaves the size of the block, and what is behind its text. -/
theorem strcpyAt_drop {mem mem' text : List UInt8} {pos n : Nat}
    (h : strcpyAt mem pos text = .ok mem') (hn : pos + (text.length + 1) ≤ n) :
    mem'.drop n = mem.drop n ∧ mem'.length = mem.length := by
  rw [strcpyAt] at h
  split at h
  · cases h
  · next hfit =>
    cases h
    have hpos : (mem.take pos).length = pos := List.length_take_of_le (by omega)
    have hlen : (mem.take pos ++ (text ++ [0])).length = pos + (text.length + 1) := by
      rw [List.length_append, hpos, List.length_append, List.length_singleton]
    rw [← List.append_assoc]
    refine ⟨?_, ?_⟩
    · rw [List.drop_append, hlen, List.drop_eq_nil_of_le (by omega), List.nil_append,
        List.drop_drop, Nat.add_sub_cancel' hn]
    · rw [List.length_append, hlen, List.length_drop]
      omega

theorem strcpyAt_fits {mem text : List UInt8} {pos : Nat}
    (h : pos + (text.length + 1) ≤ mem.length) : ∃ mem', strcpyAt mem pos text = .ok mem' :=
  ⟨_, if_neg (not_lt.mpr h)⟩

theorem intAt_drop {mem mem' : List UInt8} {pos : Nat} (h : mem'.drop pos = mem.drop pos) :
    intAt mem' pos = intAt mem pos := by
  have hread : read32 mem' pos = read32 mem pos := congrArg word32 h
  rw [intAt, intAt, hread]

theorem exists_intAt {mem : List UInt8} {pos : Nat} (h : pos + 4 ≤ mem.length) :
    ∃ v, intAt mem pos = .ok v := by
  obtain ⟨w, hw⟩ := exists_word32 (l := mem.drop pos) (by rw [List.length_drop]; omega)
  have hread : read32 mem pos = some w := hw
  exact ⟨toInt w, by rw [intAt, hread]⟩

theorem intAt_setIntAt {mem : List UInt8} {pos : Nat} {v : Int} (hpos : pos + 4 ≤ mem.length)
    (hv : -2147483648 ≤ v ∧ v < 2147483648) :
    ∃ mem', setIntAt mem pos v = .ok mem' ∧ intAt mem' pos = .ok v := by
  have hset : write32 mem (wordOf v) pos =
      some (mem.take pos ++ (le32 (wordOf v) ++ mem.drop (pos + 4))) := if_pos hpos
  have haddr : (pos : Int) = (mem.take pos).length := by rw [List.length_take_of_le (by omega)]
  have hget := read32_le32 (mem.take pos) (wordOf v) (mem.drop (pos + 4)) haddr
  refine ⟨mem.take pos ++ (le32 (wordOf v) ++ mem.drop (pos + 4)), ?_, ?_⟩
  · rw [setIntAt, hset]
  · rw [intAt, hget]
    simp only [toInt_wordOf hv]

/-! ## An entry -/

section Entry
variable {ssid single_level_db : List UInt8}

theorem singleLevel_range (single level : Int) :
    1 ≤ singleLevel single level ∧ singleLevel single level ≤ 5 := by
  rw [singleLevel_eq]
  unfold barsOf
  grind

/-- Texts that fit their fields leave the level to the tests and to what the block held. -/
theorem fillHotPoint_level (block : HotPointBlock) (hssid : ssid.length + 1 ≤ SSID_SIZE)
    (hlevel : single_level_db.length + 1 ≤ LEVEL_DB_SIZE) :
    ∃ mem level, intAt block.mem SINGLE_LEVEL = .ok level ∧
      fillHotPoint block ssid single_level_db = .ok mem ∧
      intAt mem SINGLE_LEVEL = .ok (singleLevel (atoi single_level_db) level) := by
  have hsize := block.size
  unfold HOT_POINT_SIZE at hsize
  unfold SSID_SIZE at hssid
  unfold LEVEL_DB_SIZE at hlevel
  have hfit₁ : 0 + (ssid.length + 1) ≤ block.mem.length := by omega
  obtain ⟨mem₁, h₁⟩ := strcpyAt_fits hfit₁
  obtain ⟨d₁, l₁⟩ := strcpyAt_drop h₁ (n := SINGLE_LEVEL)
    (by unfold SINGLE_LEVEL SSID_SIZE LEVEL_DB_SIZE; omega)
  have hfit₂ : LEVEL_DB + (single_level_db.length + 1) ≤ mem₁.length := by
    unfold LEVEL_DB SSID_SIZE
    omega
  obtain ⟨mem₂, h₂⟩ := strcpyAt_fits hfit₂
  obtain ⟨d₂, l₂⟩ := strcpyAt_drop h₂ (n := SINGLE_LEVEL)
    (by unfold SINGLE_LEVEL LEVEL_DB SSID_SIZE LEVEL_DB_SIZE; omega)
  have hroom : SINGLE_LEVEL + 4 ≤ mem₂.length := by
    unfold SINGLE_LEVEL SSID_SIZE LEVEL_DB_SIZE
    omega
  have hroom₀ : SINGLE_LEVEL + 4 ≤ block.mem.length := by omega
  obtain ⟨level, hprior⟩ := exists_intAt hroom₀
  have hread : intAt mem₂ SINGLE_LEVEL = .ok level := by
    rw [intAt_drop (d₂.trans d₁), hprior]
  have hrange := singleLevel_range (atoi single_level_db) level
  obtain ⟨mem, hset, hget⟩ := intAt_setIntAt hroom
    (v := singleLevel (atoi single_level_db) level) (by omega)
  refine ⟨mem, level, hprior, ?_, hget⟩
  simp only [fillHotPoint, h₁, h₂, hread, hset, ok_bind]

/-- A block that holds `level` where the number of bars will be. -/
theorem exists_block (level : Int) (h : -2147483648 ≤ level ∧ level < 2147483648) :
    ∃ block : HotPointBlock, intAt block.mem SINGLE_LEVEL = .ok level := by
  have haddr : (SINGLE_LEVEL : Int) = (zeros SINGLE_LEVEL).length := by rw [zeros_length]
  have hget := read32_le32 (zeros SINGLE_LEVEL) (wordOf level) (zeros HOT_POINT_SIZE) haddr
  refine ⟨⟨zeros SINGLE_LEVEL ++ (le32 (wordOf level) ++ zeros HOT_POINT_SIZE), ?_⟩, ?_⟩
  · simp only [List.length_append, zeros_length]
    omega
  · simp only [intAt, hget, toInt_wordOf h]

/-- A line is too short for its SSID not to fit. -/
theorem accepted_ssid {w : Wifi} {line : PipeLine} (h : Accepted w line ssid single_level_db) :
    ssid.length + 1 ≤ SSID_SIZE := by
  have hle := wifiFields_length h.fields
  have hline := line.property
  unfold SSID_SIZE
  omega

theorem fillHotPoint_ok_iff (block : HotPointBlock) (hssid : ssid.length + 1 ≤ SSID_SIZE) :
    (∃ mem, fillHotPoint block ssid single_level_db = .ok mem) ↔
      LEVEL_DB + (single_level_db.length + 1) ≤ block.mem.length := by
  have hsize := block.size
  unfold HOT_POINT_SIZE at hsize
  unfold SSID_SIZE at hssid
  have hfit₁ : 0 + (ssid.length + 1) ≤ block.mem.length := by omega
  obtain ⟨mem₁, h₁⟩ := strcpyAt_fits hfit₁
  obtain ⟨-, l₁⟩ := strcpyAt_drop h₁ (le_refl _)
  simp only [fillHotPoint, h₁, ok_bind]
  by_cases hfit : LEVEL_DB + (single_level_db.length + 1) ≤ block.mem.length
  · refine iff_of_true ?_ hfit
    have hfit₂ : LEVEL_DB + (single_level_db.length + 1) ≤ mem₁.length := by omega
    obtain ⟨mem₂, h₂⟩ := strcpyAt_fits hfit₂
    obtain ⟨-, l₂⟩ := strcpyAt_drop h₂ (le_refl _)
    have hroom : SINGLE_LEVEL + 4 ≤ mem₂.length := by
      unfold SINGLE_LEVEL SSID_SIZE LEVEL_DB_SIZE
      omega
    obtain ⟨level, hread⟩ := exists_intAt hroom
    have hrange := singleLevel_range (atoi single_level_db) level
    obtain ⟨mem, hset, -⟩ := intAt_setIntAt hroom
      (v := singleLevel (atoi single_level_db) level) (by omega)
    exact ⟨mem, by simp only [h₂, ok_bind, hread, hset]⟩
  · refine iff_of_false ?_ hfit
    rintro ⟨mem, h⟩
    rw [strcpyAt, if_pos (by rw [l₁]; omega), error_bind] at h
    cases h

/-- **The entry of a hot point is filled inside its block just when the text of the level ends
there**, and just when the line goes through the list: what the block has from the level on is the
room that the list's lines are held against. -/
theorem fillHotPoint_wifiLine (block : HotPointBlock) (freedReadable : Bool) (height : Int)
    {w : Wifi} {line : PipeLine} (h : Accepted w line ssid single_level_db) :
    ((∃ mem, fillHotPoint block ssid single_level_db = .ok mem) ↔
      LEVEL_DB + (single_level_db.length + 1) ≤ block.mem.length) ∧
    ((∃ mem, fillHotPoint block ssid single_level_db = .ok mem) ↔
      ∃ w', wifiLine ⟨block.mem.length - LEVEL_DB, freedReadable⟩ height w line = .ok w') := by
  have hsize := block.size
  unfold HOT_POINT_SIZE at hsize
  have hok : (∃ mem, fillHotPoint block ssid single_level_db = .ok mem) ↔
      LEVEL_DB + (single_level_db.length + 1) ≤ block.mem.length :=
    fillHotPoint_ok_iff block (accepted_ssid h)
  refine ⟨hok, ?_⟩
  rw [hok, wifiLine_ok_iff, harmless_point h.point h.fields]
  unfold LEVEL_DB SSID_SIZE
  refine ⟨?_, ?_⟩
  · intro hfit _ _
    show _ < _ - _
    omega
  · intro hroom
    have hlt : single_level_db.length < block.mem.length - 64 := hroom h.new h.room
    omega

theorem fillHotPoint_wifiLine_cafe :
    ∃ w', wifiLine ⟨52, true⟩ 384 (wifiWindowInit 384) ⟨ascii "cafe:-60\n", by decide⟩ =
      .ok w' := by
  have h : Accepted (wifiWindowInit 384) ⟨ascii "cafe:-60\n", by decide⟩ (ascii "cafe")
      (ascii "-60") := ⟨by decide +kernel, by decide +kernel, by decide, by decide⟩
  have hfit := fillHotPoint_wifiLine ⟨zeros HOT_POINT_SIZE, by decide⟩ true 384 h
  exact hfit.2.mp (hfit.1.mpr (by decide))

/-- **The entry of a hot point gets the bars of its level, whatever the memory held, and its texts
fit, just when the level is between -75 and -1 and its text has at most fifteen bytes.** -/
theorem signal_bars_iff {w : Wifi} {line : PipeLine} (h : Accepted w line ssid single_level_db) :
    BarsStored ssid single_level_db ↔
      (-75 ≤ atoi single_level_db ∧ atoi single_level_db < 0) ∧ single_level_db.length ≤ 15 := by
  have hssid := accepted_ssid h
  refine ⟨?_, ?_⟩
  · intro hstored
    have hlevel := hstored.levelFits
    refine ⟨?_, by unfold LEVEL_DB_SIZE at hlevel; omega⟩
    -- a block that held the three bars of another hot point
    obtain ⟨block, hblock⟩ := exists_block 3 (by decide)
    obtain ⟨mem, level, hprior, hfill, hget⟩ := fillHotPoint_level block hssid hlevel
    obtain ⟨mem', hfill', hget'⟩ := hstored.level block
    obtain rfl : mem = mem' := Except.ok.inj (hfill.symm.trans hfill')
    obtain rfl : 3 = level := Except.ok.inj (hblock.symm.trans hprior)
    have heq := Except.ok.inj (hget.symm.trans hget')
    exact ((singleLevel_barsOf _ _).mp heq).resolve_right (by decide)
  · intro ⟨hcovered, hlen⟩
    have hlevel : single_level_db.length + 1 ≤ LEVEL_DB_SIZE := by
      unfold LEVEL_DB_SIZE
      omega
    refine ⟨hssid, hlevel, ?_⟩
    intro block
    obtain ⟨mem, level, -, hfill, hget⟩ := fillHotPoint_level block hssid hlevel
    refine ⟨mem, hfill, ?_⟩
    rw [hget, (singleLevel_barsOf _ _).mpr (.inl hcovered)]

end Entry

/-- Four bars for -60. -/
theorem signal_bars_iff_cafe : BarsStored (ascii "cafe") (ascii "-60") := by
  have h : Accepted (wifiWindowInit 384) ⟨ascii "cafe:-60\n", by decide⟩ (ascii "cafe")
      (ascii "-60") := ⟨by decide +kernel, by decide +kernel, by decide, by decide⟩
  exact (signal_bars_iff h).mpr (by decide +kernel)

/-- Two lines that are accepted: of a level that no test covers, and of a level of sixteen
bytes. -/
theorem signal_bars_apart :
    (Accepted (wifiWindowInit 384) ⟨ascii "cafe:-80\n", by decide⟩ (ascii "cafe") (ascii "-80") ∧
      ¬ BarsStored (ascii "cafe") (ascii "-80")) ∧
    Accepted (wifiWindowInit 384) ⟨ascii "cafe:guest access:-60\n", by decide⟩ (ascii "cafe")
      (ascii "guest access:-60") ∧ ¬ BarsStored (ascii "cafe") (ascii "guest access:-60") := by
  refine ⟨⟨⟨by decide +kernel, by decide +kernel, by decide, by decide⟩, ?_⟩,
    ⟨by decide +kernel, by decide +kernel, by decide, by decide⟩, ?_⟩
  · intro h
    obtain ⟨block, hblock⟩ := exists_block 3 (by decide)
    obtain ⟨mem, level, hprior, hfill, hget⟩ := fillHotPoint_level block h.ssidFits h.levelFits
    obtain ⟨mem', hfill', hget'⟩ := h.level block
    obtain rfl : mem = mem' := Except.ok.inj (hfill.symm.trans hfill')
    obtain rfl : 3 = level := Except.ok.inj (hblock.symm.trans hprior)
    have heq := Except.ok.inj (hget.symm.trans hget')
    exact absurd heq (by decide +kernel)
  · intro h
    exact absurd h.levelFits (by decide)

end Lichee.View

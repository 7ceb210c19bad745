import Lichee.Core.ParseTestcase
import Lichee.Script.Layout

/- What an entry of the test table depends on. With distinct section names `script_fetch`
   answers from the section asked about alone (`scriptFetch_own`), so the keys of a section
   are its own; the entry is its own too, unless its slot was left behind by a section that
   was abandoned after part of the slot had been written.

   Only the built-in touch testcase is abandoned, and only with a category other than 0. It
   leaves its category, and its program if it has one, to the next activated section;
   `isolated_iff` says that this is all that can leak. For a script that stores no default line,
   `parseTestcase_written` says the same of its sections as they are written. -/
namespace Lichee.Core
open Base Script

/-- `script_fetch` confined to the records of section `i`. -/
def sectionFetch (s : Attached) (i : Nat) : Fetcher := fun subName count => do
  let mainkey ← readEntry s.scriptBuf (mainkeyAddr i)
  match ← searchSubkey s.scriptBuf mainkey.snd subName count (toInt mainkey.fst).toNat 0 with
  | some value => some ⟨0, value⟩
  | none => some ⟨-1, fillValue [] count⟩

/-- What section `i` says. -/
def ownKeys (s : Attached) (i : Nat) : SectionKeys := keysOf (sectionFetch s i) (nameAt s i)

def ownSections (s : Attached) : List SectionKeys :=
  (List.range (scriptMainkeyCnt s).toNat).map (ownKeys s)

/-- No two sections have a name that `script_fetch` takes for the same. -/
def DistinctNames (s : Attached) : Prop :=
  ∀ i < (scriptMainkeyCnt s).toNat, ∀ j < (scriptMainkeyCnt s).toNat,
    strncmp0 (nameAt s i) (nameAt s j) 31 = true → i = j

instance (s : Attached) : Decidable (DistinctNames s) := by
  unfold DistinctNames
  infer_instance

/-- The entry a section makes in a slot of its own. -/
def SectionKeys.entry (k : SectionKeys) (j : Nat) : TestcaseBaseInfo := k.fill zeroInfo j

/-- The table holds the entry of each contributing section, as the section alone makes it,
with its index for an id. -/
def Isolated (s : Attached) (p : Parsing) : Prop :=
  p.table = ((ownSections s).filter (·.contributes)).mapIdx fun j k => k.entry j

/-- Section `n` overwrites what the abandoned section `k` has left in the slot. -/
structure Replaces (k n : SectionKeys) : Prop where
  category : n.category.isSome = true
  program : n.program.isSome = true ∨ (k.program.getD []).headD 0 = 0

/-- What every abandoned section leaves is overwritten by the next activated one, if any. -/
def NoLeak : List SectionKeys → Prop
  | [] => True
  | k :: ks =>
    (k.abandoned = true → ∀ n, ks.find? (·.active) = some n → Replaces k n) ∧ NoLeak ks

/-! ## A fetch under a distinct name -/

theorem strncmp0_strncpy (name asked : List UInt8) :
    strncmp0 (strncpy name 32) asked 31 = strncmp0 name asked 31 := by
  simp only [strncmp0, cstr_strncpy, List.take_take, show min 31 32 = 31 from rfl]

theorem entry_of_name {s : Attached} {i : Nat} (h : (scriptMainkeyName s i).isSome = true) :
    ∃ e, readEntry s.scriptBuf (mainkeyAddr i) = some e ∧ nameAt s i = strncpy e.name 32 := by
  obtain ⟨name, hname⟩ := Option.isSome_iff_exists.mp h
  obtain ⟨e, he, hcpy⟩ := Option.bind_eq_some_iff.mp hname
  cases hcpy
  exact ⟨e, he, by rw [nameAt, hname]; rfl⟩

/-- Sections of other names are passed over. -/
theorem searchMainkey_none {img : List UInt8} {main sub : List UInt8} {count n i : Nat}
    (h : ∀ m, i ≤ m → m < i + n → ∃ e, readEntry img (mainkeyAddr m) = some e ∧
      strncmp0 e.name main 31 = false) :
    searchMainkey img main sub count n i = some ⟨-1, fillValue [] count⟩ := by
  induction n generalizing i with
  | zero => rfl
  | succ n ih =>
    obtain ⟨e, he, hne⟩ := h i (le_refl _) (by omega)
    rw [searchMainkey, he]
    simp only [Option.bind_eq_bind, Option.bind_some, hne, Bool.false_eq_true, if_false]
    exact ih fun m him hm => h m (by omega) (by omega)

/-- The search finds its section and stays in it. -/
theorem searchMainkey_own {s : Attached} {main sub : List UInt8} {count : Nat} {j : Nat} :
    ∀ (n i : Nat), i ≤ j → j < i + n →
      (∀ m, i ≤ m → m < i + n → ∃ e, readEntry s.scriptBuf (mainkeyAddr m) = some e ∧
        (strncmp0 e.name main 31 = true ↔ m = j)) →
      searchMainkey s.scriptBuf main sub count n i = sectionFetch s j sub count := by
  intro n
  induction n with
  | zero =>
    intro i _ _ _
    omega
  | succ n ih =>
    intro i hij hji h
    obtain ⟨e, he, hmatch⟩ := h i (le_refl _) (by omega)
    rw [searchMainkey, he]
    simp only [Option.bind_eq_bind, Option.bind_some]
    by_cases hi : i = j
    · subst hi
      rw [if_pos (hmatch.mpr rfl), sectionFetch, he]
      simp only [Option.bind_eq_bind, Option.bind_some]
      -- where the section has no such key the search goes on, past names that are all others
      have hrest : searchMainkey s.scriptBuf main sub count n (i + 1) =
          some ⟨-1, fillValue [] count⟩ := by
        apply searchMainkey_none
        intro m him hm
        obtain ⟨e', he', hmatch'⟩ := h m (by omega) (by omega)
        refine ⟨e', he', ?_⟩
        cases hc : strncmp0 e'.name main 31 with
        | false => rfl
        | true => exact absurd (hmatch'.mp hc) (by omega)
      cases searchSubkey s.scriptBuf e.snd sub count (toInt e.fst).toNat 0 with
      | none => rfl
      | some r =>
        cases r with
        | none => exact hrest
        | some value => rfl
    · rw [if_neg fun hc => hi (hmatch.mp hc)]
      exact ih (i + 1) (by omega) (by omega) fun m him hm => h m (by omega) (by omega)

/-- Under a name that no other section has, `script_fetch` answers from that section. -/
theorem scriptFetch_own {s : Attached} (hd : DistinctNames s)
    (hread : ∀ m < (scriptMainkeyCnt s).toNat, (scriptMainkeyName s m).isSome = true) {i : Nat}
    (hi : i < (scriptMainkeyCnt s).toNat) :
    scriptFetch s (nameAt s i) = sectionFetch s i := by
  funext sub count
  apply searchMainkey_own _ 0 (Nat.zero_le _) (by rw [Nat.zero_add]; exact hi)
  intro m _ hm
  rw [Nat.zero_add] at hm
  obtain ⟨e, he, hname⟩ := entry_of_name (hread m hm)
  refine ⟨e, he, ?_⟩
  rw [← strncmp0_strncpy, ← hname]
  refine ⟨?_, ?_⟩
  · exact hd m hm i hi
  · rintro rfl
    simp [strncmp0]

theorem sections_own {s : Attached} {p : Parsing} (hd : DistinctNames s)
    (hp : parseTestcase s = some p) : sections s = ownSections s := by
  apply List.map_congr_left
  intro i hi
  have hlt := List.mem_range.mp hi
  rw [keysAt, scriptFetch_own hd (fun m hm => names_of_parse hp hm) hlt]
  rfl

/-- At most one section is the built-in touch testcase. -/
theorem one_tp {s : Attached} (hd : DistinctNames s) :
    (ownSections s).Pairwise fun k k' => ¬ (k.isTp = true ∧ k'.isTp = true) := by
  rw [ownSections, List.pairwise_map]
  refine List.Pairwise.imp_of_mem ?_ List.pairwise_lt_range
  intro i j hi hj hij
  rintro ⟨htp, htp'⟩
  have heq : cstr (nameAt s i) = cstr (nameAt s j) := by
    simp only [SectionKeys.isTp, strcmp0, ownKeys, keysOf, beq_iff_eq] at htp htp'
    rw [htp, htp']
  have := hd i (List.mem_range.mp hi) j (List.mem_range.mp hj) (by simp [strncmp0, heq])
  omega

/-! ## The sections as they are written -/

/-- What the records of a section answer. -/
def sectionSays (s : Section) : Fetcher := fun subName count =>
  some (match findRecord subName s.records with
    | some v => ⟨0, v.fetched count⟩
    | none => ⟨-1, fillValue [] count⟩)

/-- In the image of a list of sections, section `i` is the `i`-th of them. -/
theorem sectionFetch_encode {S₁ S₂ : List Section} {s : Section} (hS : Fits (S₁ ++ s :: S₂))
    {sub : List UInt8} {count : Nat} (hc : 1 ≤ count) :
    sectionFetch ⟨encode (S₁ ++ s :: S₂), (S₁ ++ s :: S₂).length⟩ S₁.length sub count =
      sectionSays s sub count := by
  rw [sectionFetch, readEntry_section]
  simp only [Option.bind_eq_bind, Option.bind_some, recordCount hS, searchSubkey_section hS hc,
    sectionSays]
  cases findRecord sub s.records <;> rfl

/-- The keys of the sections in an image are those of the sections as they are written. -/
theorem ownSections_encode {S : List Section} (hS : Fits S) :
    ownSections ⟨encode S, S.length⟩ =
      S.map fun s => keysOf (sectionSays s) (strncpy s.name 32) := by
  apply List.ext_getElem (by simp [ownSections, scriptMainkeyCnt])
  intro i hi _
  have hlt : i < S.length := by simpa [ownSections, scriptMainkeyCnt] using hi
  obtain ⟨S₁, s, S₂, rfl, rfl⟩ := exists_split hlt
  have hname : nameAt ⟨encode (S₁ ++ s :: S₂), (S₁ ++ s :: S₂).length⟩ S₁.length =
      strncpy s.name 32 := by
    rw [nameAt, scriptMainkeyName_encode]
    rfl
  have hown : ownKeys ⟨encode (S₁ ++ s :: S₂), (S₁ ++ s :: S₂).length⟩ S₁.length =
      keysOf (sectionSays s) (strncpy s.name 32) := by
    rw [ownKeys, hname]
    simp only [keysOf, sectionFetch_encode hS (show 1 ≤ 16 by omega),
      sectionFetch_encode hS (show 1 ≤ 4 by omega), sectionFetch_encode hS (le_refl 1)]
  simp only [ownSections, List.getElem_map, List.getElem_range, hown,
    List.getElem_append_right (le_refl S₁.length), Nat.sub_self, List.getElem_cons_zero]

/-- On such an image `parse_testcase` stays inside. -/
theorem parseTestcase_encode {S : List Section} (hS : Fits S) :
    ∃ p, parseTestcase ⟨encode S, S.length⟩ = some p := by
  apply parseFrom_total
  intro m _ hm
  have hlt : m < S.length := by simpa [scriptMainkeyCnt] using hm
  obtain ⟨S₁, t, S₂, rfl, rfl⟩ := exists_split hlt
  refine ⟨strncpy t.name 32, scriptMainkeyName_encode S₁ t S₂, ?_⟩
  intro sub count hc
  rw [scriptFetch_encode hS (strncpy t.name 32) sub hc]
  exact ⟨_, rfl⟩

/-- **The table of a script that stores no default line**: `parse_testcase` stays inside the image
and leaves a test table; with distinct names its entries are those that the sections make, as they
are written. -/
theorem parseTestcase_written {b : ScriptBuf} {s : Attached}
    (hd : ∀ t, Seen b t → more t = true → ¬ DefaultLine t) (h : Compiled b s) :
    ∃ (S : List Section) (p : Parsing) (T : TestTable), Fits S ∧ s = ⟨encode S, S.length⟩ ∧
      parseTestcase s = some p ∧ T.entries = p.table ∧
      (DistinctNames s → p.table =
        runKeys (S.map fun t => keysOf (sectionSays t) (strncpy t.name 32)) zeroInfo 0) := by
  obtain ⟨img, himg, hs⟩ := h
  obtain ⟨S, hS, rfl⟩ := compiles_encode hd himg
  rw [initScript_encode hS.sections] at hs
  cases hs
  obtain ⟨p, hp⟩ := parseTestcase_encode hS
  have hcnt : scriptMainkeyCnt ⟨encode S, S.length⟩ < 2147483648 := by
    have := hS.sections
    show (S.length : Int) < 2147483648
    omega
  obtain ⟨T, hT⟩ := exists_testTable hp hcnt
  refine ⟨S, p, T, hS, rfl, hp, hT, fun hnames => ?_⟩
  rw [parseTestcase_table hp, sections_own hnames hp, ownSections_encode hS]

theorem parseTestcase_written_integer : ∃ s p, ∃ (S : List Section) (T : TestTable),
    Compiled oneInteger s ∧ parseTestcase s = some p ∧ T.entries = p.table ∧
    p.table = runKeys (S.map fun t => keysOf (sectionSays t) (strncpy t.name 32)) zeroInfo 0 := by
  obtain ⟨s, _, hs, _, hnames⟩ := @exists_of_parseText 2 oneInteger
    (fun q => decide (DistinctNames q.1)) (by decide +kernel)
  obtain ⟨S, p, T, -, -, hp, hT, htable⟩ := parseTestcase_written oneInteger_plain hs
  exact ⟨s, p, S, T, hs, hp, hT, htable (of_decide_eq_true hnames)⟩

/-! ## What is left in a slot -/

theorem strncpyInto_drop (dst src : List UInt8) (n : Nat) :
    (strncpyInto dst src n).drop n = dst.drop n := by
  rw [strncpyInto, List.drop_left' (strncpy_length src n)]

/-- A second copy leaves nothing of the first. -/
theorem strncpyInto_twice (dst a b : List UInt8) (n : Nat) :
    strncpyInto (strncpyInto dst a n) b n = strncpyInto dst b n := by
  rw [strncpyInto, strncpyInto_drop]
  rfl

/-- A copy into a zeroed array stays without a trace when the string is empty. -/
theorem strncpyInto_zeros {src : List UInt8} :
    strncpyInto (zeros 20) src 16 = zeros 20 ↔ src.headD 0 = 0 := by
  refine ⟨?_, ?_⟩
  · intro h
    cases src with
    | nil => rfl
    | cons c src =>
      by_contra hc
      have hc' : (c != 0) = true := by simpa using hc
      have hhead := congrArg (·.headD 0) h
      simp [strncpyInto, strncpy, cstr, hc', padTo, zeros] at hhead
      exact hc (by simpa using hhead)
  · intro h
    have hcstr : cstr src = [] := by
      cases src with
      | nil => rfl
      | cons c src =>
        have : c = 0 := h
        simp [cstr, this]
    rw [strncpyInto, strncpy, hcstr]
    rfl

/-- An entry in the slot of an abandoned section is its own exactly when it overwrites what
the section has left. -/
theorem fill_left_iff {k n : SectionKeys} (h : k.abandoned = true) (j : Nat) :
    n.fill (k.entry j) j = n.entry j ↔ Replaces k n := by
  obtain ⟨c, hc, hne⟩ := category_of_abandoned h
  -- a missing category leaves that of `k`, which is not the 0 of a clean slot
  have hcat : n.category.getD c = n.category.getD 0 ↔ n.category.isSome = true := by
    cases n.category with
    | none => simpa using hne
    | some d => simp
  -- a program hides the one copied before it, and an empty one leaves no trace
  have hprog : (n.fill (k.entry j) j).binary = (n.entry j).binary ↔
      n.program.isSome = true ∨ (k.program.getD []).headD 0 = 0 := by
    cases hn : n.program with
    | none =>
      cases hk : k.program with
      | none => simp [SectionKeys.fill, SectionKeys.entry, hn, hk]
      | some b =>
        simp only [SectionKeys.fill, SectionKeys.entry, hn, hk, zeroInfo]
        simp [strncpyInto_zeros]
    | some b =>
      cases hk : k.program with
      | none => simp [SectionKeys.fill, SectionKeys.entry, hn, hk]
      | some b' => simp [SectionKeys.fill, SectionKeys.entry, hn, hk, strncpyInto_twice]
  refine ⟨?_, ?_⟩
  · intro heq
    have hc' := congrArg (·.category) heq
    simp only [SectionKeys.fill, SectionKeys.entry, zeroInfo, hc, Option.getD_some] at hc'
    exact ⟨hcat.mp hc', hprog.mp (congrArg (·.binary) heq)⟩
  · rintro ⟨hcategory, hprogram⟩
    have hbin := hprog.mpr hprogram
    have hname : strncpyInto (k.entry j).name n.name 32 = strncpyInto zeroInfo.name n.name 32 :=
      strncpyInto_twice _ _ _ _
    have hdisplay : strncpyInto (k.entry j).displayName (n.displayName.getD []) 64 =
        strncpyInto zeroInfo.displayName (n.displayName.getD []) 64 := strncpyInto_twice _ _ _ _
    have hrun : (k.entry j).runType = zeroInfo.runType := by
      simp [SectionKeys.entry, SectionKeys.fill, h]
    have hcat' : n.category.getD (k.entry j).category = n.category.getD zeroInfo.category := by
      simp only [SectionKeys.entry, SectionKeys.fill, hc, zeroInfo, Option.getD_some]
      exact hcat.mpr hcategory
    show TestcaseBaseInfo.mk _ _ _ (n.fill (k.entry j) j).binary _ _ _ = _
    rw [hbin, hname, hdisplay, hrun, hcat']
    rfl

/-! ## The loop and the entries of their own -/

/-- The entries of their own from index `j` on. -/
def ownFrom (ks : List SectionKeys) (j : Nat) : List TestcaseBaseInfo :=
  (ks.filter (·.contributes)).mapIdx fun i k => k.entry (j + i)

theorem ownFrom_skip {k : SectionKeys} (h : k.contributes = false) (ks : List SectionKeys)
    (j : Nat) : ownFrom (k :: ks) j = ownFrom ks j := by
  simp [ownFrom, h]

theorem ownFrom_entry {k : SectionKeys} (h : k.contributes = true) (ks : List SectionKeys)
    (j : Nat) : ownFrom (k :: ks) j = k.entry j :: ownFrom ks (j + 1) := by
  have hshift : (fun i (k : SectionKeys) => k.entry (j + (i + 1))) =
      fun i k => k.entry (j + 1 + i) := by
    funext i k
    congr 1
    omega
  rw [ownFrom, ownFrom, List.filter_cons_of_pos h, List.mapIdx_cons, hshift]
  rfl

/-- Where no section is abandoned, only the slot at the start can leak, and only into the
first activated section. -/
theorem runKeys_first {ks : List SectionKeys} (hks : ∀ k ∈ ks, k.abandoned = false)
    (e : TestcaseBaseInfo) (j : Nat) : runKeys ks e j = ownFrom ks j ↔
      ∀ n, ks.find? (·.active) = some n → n.fill e j = n.entry j := by
  induction ks generalizing e j with
  | nil => simp [runKeys, ownFrom]
  | cons k ks ih =>
    have hab := hks k (by simp)
    have hrest := ih fun k' hk' => hks k' (by simp [hk'])
    cases hact : k.active with
    | false =>
      have hcon : k.contributes = false := by simp [SectionKeys.contributes, hact]
      rw [ownFrom_skip hcon, List.find?_cons_of_neg (by simp [hact])]
      simp only [runKeys, hact, Bool.false_eq_true, if_false]
      exact hrest e j
    | true =>
      have hcon : k.contributes = true := by simp [SectionKeys.contributes, hact, hab]
      -- behind an entry the next slot is clean
      have hclean : runKeys ks zeroInfo (j + 1) = ownFrom ks (j + 1) :=
        (hrest zeroInfo (j + 1)).mpr fun n _ => rfl
      rw [ownFrom_entry hcon, List.find?_cons_of_pos hact]
      simp [runKeys, hact, hab, hclean]

/-- The loop makes the entries of their own exactly when nothing leaks. -/
theorem runKeys_iff {ks : List SectionKeys}
    (hks : ks.Pairwise fun k k' => ¬ (k.isTp = true ∧ k'.isTp = true)) (j : Nat) :
    runKeys ks zeroInfo j = ownFrom ks j ↔ NoLeak ks := by
  induction ks generalizing j with
  | nil => simp [runKeys, ownFrom, NoLeak]
  | cons k ks ih =>
    obtain ⟨hk, hrest⟩ := List.pairwise_cons.mp hks
    cases hact : k.active with
    | false =>
      have hcon : k.contributes = false := by simp [SectionKeys.contributes, hact]
      have hab : k.abandoned = false := by simp [SectionKeys.abandoned, hact]
      rw [ownFrom_skip hcon, NoLeak, hab]
      simp only [runKeys, hact, Bool.false_eq_true, if_false, false_implies, true_and]
      exact ih hrest j
    | true =>
      cases hab : k.abandoned with
      | false =>
        have hcon : k.contributes = true := by simp [SectionKeys.contributes, hact, hab]
        rw [ownFrom_entry hcon, NoLeak, hab, ← ih hrest (j + 1)]
        simp [runKeys, hact, hab, SectionKeys.entry]
      | true =>
        -- no later section is the touch testcase, so none is abandoned
        have hlater : ∀ k' ∈ ks, k'.abandoned = false := by
          intro k' hk'
          cases hab' : k'.abandoned with
          | false => rfl
          | true => exact absurd ⟨tp_of_abandoned hab, tp_of_abandoned hab'⟩ (hk k' hk')
        have hnone : NoLeak ks := by
          rw [← ih hrest j, runKeys_first hlater]
          exact fun n _ => rfl
        have hcon : k.contributes = false := by simp [SectionKeys.contributes, hab]
        have hrun : runKeys (k :: ks) zeroInfo j = runKeys ks (k.entry j) j := by
          simp [runKeys, hact, hab, SectionKeys.entry]
        rw [ownFrom_skip hcon, hrun, runKeys_first hlater, NoLeak, hab]
        refine ⟨?_, ?_⟩
        · intro h
          exact ⟨fun _ n hn => (fill_left_iff hab j).mp (h n hn), hnone⟩
        · rintro ⟨h, -⟩ n hn
          exact (fill_left_iff hab j).mpr (h rfl n hn)

/-- With distinct section names the entries are those of the sections themselves exactly
when the section behind an abandoned one overwrites what it has left. -/
theorem isolated_iff (s : Attached) (p : Parsing) (hp : parseTestcase s = some p)
    (hd : DistinctNames s) : Isolated s p ↔ NoLeak (ownSections s) := by
  rw [← runKeys_iff (one_tp hd) 0, Isolated, parseTestcase_table hp, sections_own hd hp,
    ownFrom]
  simp only [Nat.zero_add]

instance (s : Attached) (p : Parsing) : Decidable (Isolated s p) := by
  unfold Isolated
  infer_instance

/-- Two sections, the second with a category of its own. -/
def memoryText : ScriptBuf where
  text := ascii "[tp]\ndisplay_name=1\nactivated=1\ncategory=1\n[memory]\ndisplay_name=1\nactivated=1\ncategory=0\n"
  next := 0
  rest := [0]

theorem memory_isolated : ∃ s p, Compiled memoryText s ∧
    (Isolated s p ↔ NoLeak (ownSections s)) := by
  obtain ⟨s, p, hs, hp, hd⟩ := @exists_of_parseText 12 memoryText
    (fun q => decide (DistinctNames q.1)) (by decide +kernel)
  exact ⟨s, p, hs, isolated_iff s p hp (of_decide_eq_true hd)⟩

/-- `memory` has no category, and gets that of `tp`. -/
def touchText : ScriptBuf where
  text := ascii "[tp]\ndisplay_name=1\nactivated=1\ncategory=1\n[memory]\ndisplay_name=1\nactivated=1\n"
  next := 0
  rest := [0]

theorem touch_leaks : ∃ s p, Compiled touchText s ∧ parseTestcase s = some p ∧
    DistinctNames s ∧ ¬ Isolated s p := by
  obtain ⟨s, p, hs, hp, hcheck⟩ := @exists_of_parseText 12 touchText
    (fun q => decide (DistinctNames q.1) && !decide (Isolated q.1 q.2))
    (by decide +kernel)
  rw [Bool.and_eq_true] at hcheck
  exact ⟨s, p, hs, hp, of_decide_eq_true hcheck.1, by simpa using hcheck.2⟩

end Lichee.Core

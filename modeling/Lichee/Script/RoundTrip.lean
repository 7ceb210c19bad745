import Lichee.Script.Run

/- The round trip of a script: compiled and read back. The image is `encode` of the whole
   script (`compiles_render`), and every fetch is a lookup in it (`fetch_compiled`). -/
namespace Lichee.Script
open Base

/-- **A well-formed script compiles to the image of what it denotes**, whatever follows it
in memory. -/
theorem compiles_render (T : ScriptText) (next : UInt8) (rest : List UInt8) :
    Compiles ⟨T.render, next, rest⟩ (encode T.denote) := by
  have h := compiles_commented T.commented next rest
  rwa [commented_render] at h

/-! ## Looking up what was written -/

/-- A name as the callers of `script_fetch` pass it. -/
structure IsName (name : List UInt8) : Prop where
  short : name.length ≤ 31
  nul : 0 ∉ name

theorem strncmp0_name {a b : List UInt8} (ha : IsName a) (hb : IsName b) :
    strncmp0 a b 31 = true ↔ a = b := by
  rw [strncmp0_iff (by rw [cstr_self ha.nul]; exact ha.short)
    (by rw [cstr_self hb.nul]; exact hb.short), cstr_self ha.nul, cstr_self hb.nul]

theorem key_isName (k : KeyLine) : IsName k.key := ⟨k.key_short, k.key_nul⟩

theorem section_isName (s : SectionText) : IsName s.name := ⟨s.name_short, s.name_nul⟩

theorem findRecord_mem {keys : List KeyLine} (hd : (keys.map (·.key)).Nodup) {k : KeyLine}
    (hk : k ∈ keys) : findRecord k.key (keys.map (·.record)) = some k.value.value := by
  induction keys with
  | nil => cases hk
  | cons k₀ keys ih =>
    rw [List.map_cons, List.nodup_cons] at hd
    rw [List.map_cons, findRecord_cons]
    rcases List.mem_cons.mp hk with rfl | hmem
    · have heq : strncmp0 k.record.key k.key 31 = true :=
        (strncmp0_name (key_isName k) (key_isName k)).mpr rfl
      rw [if_pos heq]
      rfl
    · have hne : ¬ strncmp0 k₀.record.key k.key 31 = true := by
        intro heq
        have : k₀.key = k.key := (strncmp0_name (key_isName k₀) (key_isName k)).mp heq
        exact hd.1 (this ▸ List.mem_map_of_mem hmem)
      rw [if_neg hne]
      exact ih hd.2 hmem

theorem findRecord_none {keys : List KeyLine} {sub : List UInt8} (hsub : IsName sub)
    (h : ∀ k ∈ keys, k.key ≠ sub) : findRecord sub (keys.map (·.record)) = none := by
  induction keys with
  | nil => rfl
  | cons k keys ih =>
    have hne : ¬ strncmp0 k.record.key sub 31 = true := fun heq =>
      h k (by simp) ((strncmp0_name (key_isName k) hsub).mp heq)
    rw [List.map_cons, findRecord_cons, if_neg hne]
    exact ih fun k' hk' => h k' (by simp [hk'])

theorem lookup_mem {T : List SectionText} (hd : (T.map (·.name)).Nodup) {s : SectionText}
    (hs : s ∈ T) {k : KeyLine} (hk : k ∈ s.keys) :
    lookup s.name k.key (T.map (·.denote)) = some k.value.value := by
  induction T with
  | nil => cases hs
  | cons s₀ T ih =>
    rw [List.map_cons, List.nodup_cons] at hd
    rw [List.map_cons, lookup]
    rcases List.mem_cons.mp hs with rfl | hmem
    · have heq : strncmp0 s.denote.name s.name 31 = true :=
        (strncmp0_name (section_isName s) (section_isName s)).mpr rfl
      rw [if_pos heq]
      simp only [SectionText.denote, findRecord_mem s.distinct hk]
    · have hne : ¬ strncmp0 s₀.denote.name s.name 31 = true := by
        intro heq
        have : s₀.name = s.name := (strncmp0_name (section_isName s₀) (section_isName s)).mp heq
        exact hd.1 (this ▸ List.mem_map_of_mem hmem)
      rw [if_neg hne]
      exact ih hd.2 hmem

theorem lookup_none {T : List SectionText} {main sub : List UInt8} (hmain : IsName main)
    (hsub : IsName sub) (h : ∀ s ∈ T, s.name = main → ∀ k ∈ s.keys, k.key ≠ sub) :
    lookup main sub (T.map (·.denote)) = none := by
  induction T with
  | nil => rfl
  | cons s T ih =>
    have hrest := ih fun s' hs' => h s' (by simp [hs'])
    rw [List.map_cons, lookup]
    split
    · next heq =>
      have hname : s.name = main := (strncmp0_name (section_isName s) hmain).mp heq
      simp only [SectionText.denote, findRecord_none hsub (h s (by simp) hname)]
      exact hrest
    · exact hrest

/-- The zeros behind a string do not show in a longer field. -/
theorem padTo_take_padTo {n m : Nat} {s : List UInt8} :
    padTo n ((padTo m s).take n) = padTo n (s.take n) := by
  by_cases h : n ≤ s.length
  · rw [show padTo m s = s ++ zeros (m - s.length) from rfl, List.take_append_of_le_length h]
  · -- the cut is in the zeros
    have htake : (padTo m s).take n = s ++ zeros (min (n - s.length) (m - s.length)) := by
      rw [padTo, List.take_append, List.take_of_length_le (by omega), zeros, List.take_replicate]
      rfl
    rw [htake, List.take_of_length_le (by omega), padTo, List.append_assoc, zeros_append,
      List.length_append, zeros_length, padTo]
    congr 2; omega

/-- A value of the image is fetched as what it was written for. -/
theorem fetched_yields (w : Written) (count : Nat) :
    w.Yields count (w.value.fetched count) := by
  have hstring : ∀ s : List UInt8, fillValue ((stringData s).take (count * 4)) count =
      padTo (count * 4) (s.take (count * 4)) := fun s => padTo_take_padTo
  cases w with
  | int neg ds ne digits short low high => exact ⟨_, toInt_literalWord low high, rfl⟩
  | named s => exact hstring s
  | quoted s => exact hstring s

/-- **Compile and fetch.** A well-formed script compiles, and on its image `script_fetch`
yields what each of its lines says, and -1 for every other pair of names. -/
theorem fetch_compiled (T : ScriptText) (next : UInt8) (rest : List UInt8) :
    ∃ img attached, Compiles ⟨T.render, next, rest⟩ img ∧ initScript img = some attached ∧
      (∀ s ∈ T.sections, ∀ k ∈ s.keys, ∀ count, 1 ≤ count →
        ∃ bytes, scriptFetch attached s.name k.key count = some ⟨0, bytes⟩ ∧
          k.value.Yields count bytes) ∧
      (∀ main sub count, IsName main → IsName sub → 1 ≤ count →
        (∀ s ∈ T.sections, s.name = main → ∀ k ∈ s.keys, k.key ≠ sub) →
        ∃ bytes, scriptFetch attached main sub count = some ⟨-1, bytes⟩) := by
  have hfit : Fits T.denote := T.fits
  refine ⟨encode T.denote, ⟨encode T.denote, T.denote.length⟩, compiles_render T next rest,
    initScript_encode hfit.sections, ?_, ?_⟩
  · intro s hs k hk count hc
    refine ⟨k.value.value.fetched count, ?_, fetched_yields k.value count⟩
    rw [scriptFetch_encode hfit _ _ hc]
    unfold ScriptText.denote
    rw [lookup_mem T.distinct hs hk]
  · intro main sub count hmain hsub hc hnot
    refine ⟨fillValue [] count, ?_⟩
    rw [scriptFetch_encode hfit _ _ hc]
    unfold ScriptText.denote
    rw [lookup_none hmain hsub hnot]

end Lichee.Script

import Mathlib.Data.Set.Insert
import Mathlib.Logic.Function.Basic

/- Computations that ask for entries of a table of which only a part is known. An `Ask` has an
   answer as soon as every entry it asks for is known, and keeps that answer when more of the
   table becomes known. Two tables that settle their entries by the same computations, each from
   entries of a lower rank, agree on what both know (`Ask.settled_unique`). -/
namespace Lichee.Base

variable {K V A B : Type}

/-- What is known of a table is known of the other one. -/
def Contained (r r' : K → Option V) : Prop := ∀ k v, r k = some v → r' k = some v

theorem Contained.trans {r₁ r₂ r₃ : K → Option V} (h : Contained r₁ r₂) (h' : Contained r₂ r₃) :
    Contained r₁ r₃ := fun k v hk => h' k v (h k v hk)

/-- A computation that asks for entries. -/
structure Ask (K V A : Type) where
  run : (K → Option V) → Option A
  mono : ∀ r r' : K → Option V, Contained r r' → ∀ a, run r = some a → run r' = some a

namespace Ask

instance : Monad (Ask K V) where
  pure a := ⟨fun _ => some a, fun _ _ _ _ h => h⟩
  bind m f :=
    { run := fun r => (m.run r).bind fun a => (f a).run r
      mono := by
        intro r r' hle b h
        obtain ⟨a, ha, hb⟩ := Option.bind_eq_some_iff.mp h
        exact Option.bind_eq_some_iff.mpr
          ⟨a, m.mono r r' hle a ha, (f a).mono r r' hle b hb⟩ }

/-- Ask for one entry. -/
def key (k : K) : Ask K V V where
  run r := r k
  mono _ _ hle a h := hle k a h

/-- The computation with an entry supposed to be known. -/
def assuming [DecidableEq K] (k : K) (v : V) (m : Ask K V A) : Ask K V A where
  run r := m.run (Function.update r k (some v))
  mono := by
    intro r r' hle a h
    refine m.mono _ _ ?_ a h
    intro j w hj
    by_cases hjk : j = k
    · subst hjk
      rwa [Function.update_self] at hj ⊢
    · rw [Function.update_of_ne hjk] at hj ⊢
      exact hle j w hj

@[simp] theorem run_pure (r : K → Option V) (a : A) : (pure a : Ask K V A).run r = some a := rfl

@[simp] theorem run_bind (r : K → Option V) (m : Ask K V A) (f : A → Ask K V B) :
    (m >>= f).run r = (m.run r).bind fun a => (f a).run r := rfl

@[simp] theorem run_key (r : K → Option V) (k : K) : (key k : Ask K V V).run r = r k := rfl

theorem run_ite (r : K → Option V) (c : Prop) [Decidable c] (m m' : Ask K V A) :
    (if c then m else m').run r = if c then m.run r else m'.run r := by
  split <;> rfl

/-! ## What is asked for -/

/-- Only entries in `S` are asked for. -/
def AsksIn (S : Set K) (m : Ask K V A) : Prop :=
  ∀ r r' : K → Option V, (∀ k ∈ S, r k = r' k) → m.run r = m.run r'

namespace AsksIn
variable {S S' : Set K} {m : Ask K V A} {f : A → Ask K V B}

theorem pure (a : A) : AsksIn S (pure a : Ask K V A) := fun _ _ _ => rfl

theorem key {k : K} (hk : k ∈ S) : AsksIn S (key k : Ask K V V) := fun _ _ h => h k hk

/-- The second computation asks only for what the results of the first one make it ask for. -/
theorem bind_of (hm : AsksIn S m) {R : A → Prop} (hR : ∀ r a, m.run r = some a → R a)
    (hf : ∀ a, R a → AsksIn S (f a)) : AsksIn S (m >>= f) := by
  intro r r' h
  rw [run_bind, run_bind, hm r r' h]
  cases ha : m.run r' with
  | none => rfl
  | some a => exact hf a (hR r' a ha) r r' h

theorem bind (hm : AsksIn S m) (hf : ∀ a, AsksIn S (f a)) : AsksIn S (m >>= f) :=
  hm.bind_of (fun _ _ _ => trivial) fun a _ => hf a

theorem assuming [DecidableEq K] {k : K} {v : V} (h : AsksIn (insert k S) m) :
    AsksIn S (assuming k v m) := by
  intro r r' hr
  apply h
  intro j hj
  by_cases hjk : j = k
  · rw [hjk, Function.update_self, Function.update_self]
  · rw [Function.update_of_ne hjk, Function.update_of_ne hjk]
    exact hr j (hj.resolve_left hjk)

end AsksIn

open Classical in
/-- The entries in `D`. -/
noncomputable def within (D : Set K) (r : K → Option V) (k : K) : Option V :=
  if k ∈ D then r k else none

theorem within_of_mem {D : Set K} {r : K → Option V} {k : K} (hk : k ∈ D) : within D r k = r k :=
  if_pos hk

theorem within_some {D : Set K} {r : K → Option V} {k : K} {v : V} :
    within D r k = some v ↔ k ∈ D ∧ r k = some v := by
  unfold within
  split
  · next hk => exact ⟨fun h => ⟨hk, h⟩, fun h => h.2⟩
  · next hk => exact ⟨fun h => (nomatch h), fun h => absurd h.1 hk⟩

/-! ## Tables that agree -/

/-- The entries that both tables know are the same. -/
def Agree (r r' : K → Option V) : Prop := ∀ k v v', r k = some v → r' k = some v' → v = v'

/-- What is known of one table or of the other. -/
def both (r r' : K → Option V) (k : K) : Option V := (r k).or (r' k)

theorem below_both (r r' : K → Option V) : Contained r (both r r') := by
  intro k v h
  rw [both, h]
  rfl

theorem Agree.below_both {r r' : K → Option V} (h : Agree r r') : Contained r' (both r r') := by
  intro k v' hk
  rw [both]
  cases hr : r k with
  | none => exact hk
  | some v => rw [Option.or, h k v v' hr hk]

/-- Tables that agree give the same answers. -/
theorem agree (m : Ask K V A) {r r' : K → Option V} (h : Agree r r') {a a' : A}
    (ha : m.run r = some a) (ha' : m.run r' = some a') : a = a' := by
  have hjoin := m.mono _ _ (below_both r r') a ha
  rw [m.mono _ _ h.below_both a' ha'] at hjoin
  exact (Option.some.inj hjoin).symm

/-- The entries of a lower rank. -/
def under (rank : K → Nat) (n : Nat) (r : K → Option V) (k : K) : Option V :=
  if rank k < n then r k else none

/-- Each entry is what its computation makes of the entries of a lower rank. -/
def Settles (rank : K → Nat) (body : K → Ask K V V) (r : K → Option V) : Prop :=
  ∀ k v, r k = some v → (body k).run (under rank (rank k) r) = some v

/-- The entries below a rank are determined by their computations. -/
theorem settled_unique {rank : K → Nat} {body body' : K → Ask K V V} {r r' : K → Option V}
    {n : Nat} (hr : Settles rank body r) (hr' : Settles rank body' r')
    (hbody : ∀ k, rank k < n → body k = body' k) :
    Agree (under rank n r) (under rank n r') := by
  induction n with
  | zero =>
    intro k v v' h
    simp [under] at h
  | succ n ih =>
    intro k v v' h h'
    have hk : rank k < n + 1 := by
      by_contra hge
      rw [under, if_neg hge] at h
      cases h
    rw [under, if_pos hk] at h h'
    have hagree : Agree (under rank (rank k) r) (under rank (rank k) r') := by
      intro j w w' hj hj'
      refine ih (fun i hi => hbody i (by omega)) j w w' ?_ ?_
      · rw [under] at hj ⊢
        split at hj
        · rw [if_pos (by omega), hj]
        · cases hj
      · rw [under] at hj' ⊢
        split at hj'
        · rw [if_pos (by omega), hj']
        · cases hj'
    have hv' := hr' k v' h'
    rw [← hbody k hk] at hv'
    exact (body k).agree hagree (hr k v h) hv'

/-- Tables whose entries follow from entries of a lower rank agree on what both know. -/
theorem settled_agree {rank : K → Nat} {body : K → Ask K V V} {r r' : K → Option V}
    (hbody : ∀ k, AsksIn {j | rank j < rank k} (body k))
    (hr : ∀ k v, r k = some v → (body k).run r = some v)
    (hr' : ∀ k v, r' k = some v → (body k).run r' = some v) : Agree r r' := by
  have hsettles : ∀ r : K → Option V, (∀ k v, r k = some v → (body k).run r = some v) →
      Settles rank body r := by
    intro r hr k v hk
    rw [← hr k v hk]
    exact hbody k _ _ fun j hj => if_pos hj
  intro k v v' hk hk'
  have hknown : ∀ {r : K → Option V} {v : V}, r k = some v →
      under rank (rank k + 1) r k = some v := by
    intro r v hv
    rw [under, if_pos (Nat.lt_succ_self _), hv]
  exact settled_unique (hsettles r hr) (hsettles r' hr') (fun _ _ => rfl) k v v' (hknown hk)
    (hknown hk')

end Ask

end Lichee.Base

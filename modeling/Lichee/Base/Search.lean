import Mathlib.Data.List.Nodup
import Mathlib.Data.Set.Finite.Basic
import Mathlib.Logic.Relation

/- Depth-first search with one list of the nodes seen, shared by all branches. `Explored`
   says what a search from some nodes did to that list and which edges it collected,
   whatever the order it went in, and its rules follow the search: a node seen before, a new
   node whose successors were searched, one search after another. A search explores what can
   be reached (`Explored.reached`), and all of it where the nodes seen before lead nowhere else
   (`Explored.covers`). Every new node leaves fewer of a finite set (`unseen_lt`). -/
namespace Lichee.Base

variable {α : Type} (succ : α → List α)

/-- A path along successors. -/
def Reaches : α → α → Prop := Relation.ReflTransGen fun x y => y ∈ succ x

/-- What can be reached from some of the nodes `roots`. -/
def ReachedFrom (roots : List α) (y : α) : Prop := ∃ x ∈ roots, Reaches succ x y

/-- A search from `roots`, with the nodes `seen` before: the new ones it visited, each once,
and the edges out of them. -/
structure Explored (seen roots new : List α) (edges : List (α × α)) : Prop where
  nodup : new.Nodup
  fresh : ∀ y ∈ new, y ∉ seen
  visited : ∀ x ∈ roots, x ∈ seen ∨ x ∈ new
  reached : ∀ y ∈ new, ReachedFrom succ roots y
  closed : ∀ y ∈ new, ∀ z ∈ succ y, z ∈ seen ∨ z ∈ new
  edges_iff : ∀ e, e ∈ edges ↔ e.1 ∈ new ∧ e.2 ∈ succ e.1

variable {succ}

namespace ReachedFrom

theorem root {roots : List α} {x : α} (hx : x ∈ roots) : ReachedFrom succ roots x :=
  ⟨x, hx, .refl⟩

theorem mono {roots roots' : List α} {y : α} (hsub : ∀ x ∈ roots, x ∈ roots')
    (hy : ReachedFrom succ roots y) : ReachedFrom succ roots' y := by
  obtain ⟨x, hx, hp⟩ := hy
  exact ⟨x, hsub x hx, hp⟩

/-- What can be reached from the successors of a node can be reached from it. -/
theorem of_succ {x y : α} (hy : ReachedFrom succ (succ x) y) : ReachedFrom succ [x] y := by
  obtain ⟨z, hz, hp⟩ := hy
  exact ⟨x, List.mem_singleton_self x, .head hz hp⟩

end ReachedFrom

namespace Explored
variable {seen roots roots' new new' : List α} {edges edges' : List (α × α)} {x : α}

/-- Nothing is searched. -/
theorem nil (seen : List α) : Explored succ seen [] [] [] where
  nodup := .nil
  fresh := by
    intro y hy
    cases hy
  visited := by
    intro y hy
    cases hy
  reached := by
    intro y hy
    cases hy
  closed := by
    intro y hy
    cases hy
  edges_iff := by
    intro e
    refine ⟨?_, ?_⟩
    · intro he
      cases he
    · rintro ⟨he, -⟩
      cases he

/-- A node seen before is not searched again. -/
theorem skip (hx : x ∈ seen) : Explored succ seen [x] [] [] where
  __ := nil seen
  visited := by
    intro y hy
    rw [List.mem_singleton.mp hy]
    exact .inl hx
  reached := by
    intro y hy
    cases hy

/-- A new node, whose successors were searched. -/
theorem node (hx : x ∉ seen) (h : Explored succ (seen ++ [x]) (succ x) new edges) :
    Explored succ seen [x] (x :: new) ((succ x).map (x, ·) ++ edges) where
  nodup := by
    refine List.nodup_cons.mpr ⟨fun hmem => h.fresh x hmem ?_, h.nodup⟩
    exact List.mem_append_right _ (List.mem_singleton_self x)
  fresh := by
    intro y hy
    rcases List.mem_cons.mp hy with rfl | hy
    · exact hx
    · exact fun hs => h.fresh y hy (List.mem_append_left _ hs)
  visited := by
    intro y hy
    rw [List.mem_singleton.mp hy]
    exact .inr List.mem_cons_self
  reached := by
    intro y hy
    rcases List.mem_cons.mp hy with rfl | hy
    · exact .root (List.mem_singleton_self _)
    · exact (h.reached y hy).of_succ
  closed := by
    -- `x` was seen while its successors were searched, and is new itself
    have hseen : ∀ z, z ∈ seen ++ [x] ∨ z ∈ new → z ∈ seen ∨ z ∈ x :: new := by
      rintro z (hz | hz)
      · rcases List.mem_append.mp hz with hz | hz
        · exact .inl hz
        · exact .inr (List.mem_singleton.mp hz ▸ List.mem_cons_self)
      · exact .inr (List.mem_cons_of_mem _ hz)
    intro y hy z hz
    rcases List.mem_cons.mp hy with rfl | hy
    · exact hseen z (h.visited z hz)
    · exact hseen z (h.closed y hy z hz)
  edges_iff := by
    rintro ⟨y, z⟩
    rw [List.mem_append, h.edges_iff, List.mem_map, List.mem_cons]
    refine ⟨?_, ?_⟩
    · rintro (⟨w, hw, heq⟩ | ⟨hy, hz⟩)
      · cases heq
        exact ⟨.inl rfl, hw⟩
      · exact ⟨.inr hy, hz⟩
    · rintro ⟨rfl | hy, hz⟩
      · exact .inl ⟨z, hz, rfl⟩
      · exact .inr ⟨hy, hz⟩

/-- One search after another. -/
theorem append (h : Explored succ seen roots new edges)
    (h' : Explored succ (seen ++ new) roots' new' edges') :
    Explored succ seen (roots ++ roots') (new ++ new') (edges ++ edges') where
  nodup := by
    refine h.nodup.append h'.nodup fun y hy hy' => ?_
    exact h'.fresh y hy' (List.mem_append_right _ hy)
  fresh := by
    intro y hy
    rcases List.mem_append.mp hy with hy | hy
    · exact h.fresh y hy
    · exact fun hs => h'.fresh y hy (List.mem_append_left _ hs)
  visited := by
    intro y hy
    rcases List.mem_append.mp hy with hy | hy
    · exact (h.visited y hy).imp_right (List.mem_append_left _)
    · rcases h'.visited y hy with hy | hy
      · exact (List.mem_append.mp hy).imp_right (List.mem_append_left _)
      · exact .inr (List.mem_append_right _ hy)
  reached := by
    intro y hy
    rcases List.mem_append.mp hy with hy | hy
    · exact (h.reached y hy).mono fun _ => List.mem_append_left _
    · exact (h'.reached y hy).mono fun _ => List.mem_append_right _
  closed := by
    intro y hy z hz
    rcases List.mem_append.mp hy with hy | hy
    · exact (h.closed y hy z hz).imp_right (List.mem_append_left _)
    · rcases h'.closed y hy z hz with hs | hs
      · exact (List.mem_append.mp hs).imp_right (List.mem_append_left _)
      · exact .inr (List.mem_append_right _ hs)
  edges_iff := by
    intro e
    rw [List.mem_append, h.edges_iff, h'.edges_iff, List.mem_append, or_and_right]

/-- Everything that can be reached was seen, if what the nodes seen before lead to was. -/
theorem covers (h : Explored succ seen roots new edges)
    (hseen : ∀ y ∈ seen, ReachedFrom succ roots y → ∀ z ∈ succ y, z ∈ seen ∨ z ∈ new) {y : α}
    (hy : ReachedFrom succ roots y) : y ∈ seen ∨ y ∈ new := by
  obtain ⟨x, hx, hp⟩ := hy
  induction hp with
  | refl => exact h.visited x hx
  | tail hp hz ih =>
    rcases ih with hs | hn
    · exact hseen _ hs ⟨x, hx, hp⟩ _ hz
    · exact h.closed _ hn _ hz

end Explored

/-! ## Termination -/

variable [DecidableEq α]

/-- The nodes of `all` not seen. -/
def unseen (all seen : List α) : Nat := (all.filter (· ∉ seen)).length

theorem unseen_mono (all : List α) {seen seen' : List α} (h : ∀ x ∈ seen, x ∈ seen') :
    unseen all seen' ≤ unseen all seen := by
  refine List.Sublist.length_le (List.monotone_filter_right all fun x hx => ?_)
  simp only [decide_eq_true_eq] at hx ⊢
  exact fun hs => hx (h x hs)

/-- A new node leaves fewer of them. -/
theorem unseen_lt {all seen : List α} {x : α} (hall : x ∈ all) (hx : x ∉ seen) :
    unseen all (seen ++ [x]) < unseen all seen := by
  have hfilter : all.filter (· ∉ seen ++ [x]) = (all.filter (· ∉ seen)).filter (· ≠ x) := by
    rw [List.filter_filter]
    refine List.filter_congr fun y _ => ?_
    rw [← Bool.decide_and]
    refine decide_eq_decide.mpr ?_
    rw [List.mem_append, List.mem_singleton, not_or, and_comm]
  rw [unseen, hfilter]
  refine List.length_filter_lt_length_iff_exists.mpr ⟨x, ?_, by simp⟩
  exact List.mem_filter.mpr ⟨hall, decide_eq_true hx⟩

end Lichee.Base

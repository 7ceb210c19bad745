import Mathlib.Data.List.Basic

/- Byte stuffing. A sender that must keep some values off the line writes each of them as
   an escape and a code; a value that needs no escape is written as it is. What stands on the
   line is then no more than twice as long (`encode_length_le`), each value of it is the
   escape, a code, or a value that has none (`mem_encode`), and it can be read back
   (`decode_encode`). -/
namespace Lichee.Base

/-- The values to be escaped, each with its code; the escape is one of them. -/
structure Stuffing (α : Type) where
  esc : α
  code : α → Option α
  back : α → Option α
  back_code : ∀ c d, code c = some d → back d = some c
  esc_coded : (code esc).isSome = true

namespace Stuffing
variable {α : Type} (S : Stuffing α)

def stuff (c : α) : List α :=
  match S.code c with
  | some d => [S.esc, d]
  | none => [c]

def encode (l : List α) : List α := l.flatMap S.stuff

theorem encode_nil : S.encode [] = [] := rfl

theorem encode_cons (c : α) (l : List α) : S.encode (c :: l) = S.stuff c ++ S.encode l :=
  List.flatMap_cons

theorem encode_append (a b : List α) : S.encode (a ++ b) = S.encode a ++ S.encode b :=
  List.flatMap_append

theorem stuff_length_le (c : α) : (S.stuff c).length ≤ 2 := by
  unfold stuff
  split <;> simp

theorem encode_length_le (l : List α) : (S.encode l).length ≤ 2 * l.length := by
  induction l with
  | nil => exact Nat.le_refl 0
  | cons c l ih =>
    have := S.stuff_length_le c
    rw [encode_cons, List.length_append, List.length_cons]
    omega

/-- What stands on the line is the escape, a code, or a value without one. -/
theorem mem_encode {x : α} {l : List α} (h : x ∈ S.encode l) :
    x = S.esc ∨ (∃ c, S.code c = some x) ∨ S.code x = none := by
  obtain ⟨c, -, hx⟩ := List.mem_flatMap.mp h
  unfold stuff at hx
  split at hx
  · next d hd =>
    rcases List.mem_pair.mp hx with rfl | rfl
    · exact .inl rfl
    · exact .inr (.inl ⟨c, hd⟩)
  · next hd =>
    rw [List.mem_singleton] at hx
    subst hx
    exact .inr (.inr hd)

/-- A value without a code is not the escape. -/
theorem ne_esc {c : α} (h : S.code c = none) : c ≠ S.esc := by
  rintro rfl
  have := S.esc_coded
  rw [h] at this
  cases this

variable [DecidableEq α]

/-- What was encoded: the value of the code behind each escape, and every other value as it is. -/
def decode : List α → Option (List α)
  | [] => some []
  | x :: l =>
    if x = S.esc then
      match l with
      | [] => none
      | d :: l => do
        let c ← S.back d
        let cs ← decode l
        some (c :: cs)
    else (decode l).map (x :: ·)

theorem decode_stuff (c : α) (l : List α) :
    S.decode (S.stuff c ++ l) = (S.decode l).map (c :: ·) := by
  unfold stuff
  split
  · next d hd =>
    simp only [List.cons_append, List.nil_append, decode, if_true, S.back_code c d hd,
      Option.bind_eq_bind, Option.bind_some]
    rw [Option.map_eq_bind]
    rfl
  · next hd =>
    rw [List.singleton_append, decode.eq_def]
    exact if_neg (S.ne_esc hd)

/-- What was encoded is read back. -/
theorem decode_encode (l : List α) : S.decode (S.encode l) = some l := by
  induction l with
  | nil => rfl
  | cons c l ih => rw [encode_cons, decode_stuff, ih, Option.map_some]

end Stuffing

end Lichee.Base

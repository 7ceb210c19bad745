import Lichee.Base.Input
import Lichee.Bluetooth.Session

/- How the bytes come in (`h5_recv` of hciattach_rtk.c). `h5_recv` acts on an expected count of
   zero only when it gets another byte, so where a chunk ends decides in which call a header is
   looked at or a packet completed, but not what comes of it: two chunks one after the other
   leave the receiver as both in one do (`recv_chunks`). What is read out of a freed buffer may
   depend on the receiver and on the bytes still to come, which are the same either way. -/
namespace Lichee.Bluetooth
open Base

/-- What a read of freed memory gives while `b` is still to come. -/
def before (b : List UInt8) (freed : Hw → List UInt8 → UInt8) : Hw → List UInt8 → UInt8 :=
  fun h l => freed h (l ++ b)

/-- `h5_recv` on the chunk `a` and then on the chunk `b`: a program that ends in the first call
makes no second one. -/
def ReceivedTwice (freed : Hw → List UInt8 → UInt8) (h : Hw) (a b : List UInt8)
    (r : Except Crash (Hw × List UInt8)) : Prop :=
  (∃ h₁, Received (before b freed) h a (.ok (h₁, [])) ∧ Received freed h₁ b r) ∨
    ∃ e, r = .error e ∧ Received (before b freed) h a (.error e)

/-- An iteration looks at one byte. -/
theorem recvStep_prefixed (freed : Hw → List UInt8 → UInt8) (b : List UInt8) :
    Prefixed (recvStep (before b freed)) (recvStep freed) b := by
  intro h l hl
  cases l with
  | nil => exact absurd rfl hl
  | cons byte ptr =>
    simp only [List.cons_append, recvStep]
    split
    · split
      · rfl
      · cases h5UnslipOneByte h byte <;> rfl
    · split
      · rfl
      · next skb _ _ =>
        split
        · rfl
        · cases h5CompleteRxPkt h skb <;> rfl
      · next skb _ _ =>
        split
        · rfl
        · cases h5CompleteRxPkt h (skbTrim skb (skb.data.length - 2)) <;> rfl
      · rfl
      · split <;> rfl
      · rfl

theorem received_append (freed : Hw → List UInt8 → UInt8) (h : Hw) (a b : List UInt8)
    (r : Except Crash (Hw × List UInt8)) :
    Received freed h (a ++ b) r ↔ ReceivedTwice freed h a b r :=
  (recvStep_prefixed freed b).ends_append

/-- **Chunks do not matter.** From any state a run leads to, `h5_recv` on two chunks at once and
on one after the other come to the same end: the same receiver, which has completed the same
packets in the same order, or the end of the program. -/
theorem recv_chunks (freed : Hw → List UInt8 → UInt8) {s : Session} (hs : Reachable freed s)
    (a b : List UInt8) :
    ∃ r, (∀ r', Received freed s.hw (a ++ b) r' ↔ r' = r) ∧
      ∀ r', ReceivedTwice freed s.hw a b r' ↔ r' = r := by
  have hends : ∃ r, Received freed s.hw (a ++ b) r := by
    obtain ⟨h', hok⟩ | hexit := received_total freed hs.receiving (a ++ b)
    · exact ⟨_, hok⟩
    · exact ⟨_, hexit⟩
  obtain ⟨r, hr⟩ := hends
  have honly : ∀ r', Received freed s.hw (a ++ b) r' ↔ r' = r := by
    intro r'
    refine ⟨?_, ?_⟩
    · intro ⟨m, hm⟩
      obtain ⟨n, hn⟩ := hr
      exact whileLoop_unique hm hn
    · rintro rfl
      exact hr
  refine ⟨r, honly, fun r' => ?_⟩
  rw [← received_append]
  exact honly r'

/-- A packet cut behind its first byte. -/
theorem recv_chunks_first : ∃ r, (∀ r', Received (fun _ _ => 0) rtkInit ([0xc0] ++ [0x80]) r' ↔
    r' = r) ∧ ∀ r', ReceivedTwice (fun _ _ => 0) rtkInit [0xc0] [0x80] r' ↔ r' = r :=
  recv_chunks (fun _ _ => 0) (s := .init) .refl [0xc0] [0x80]

end Lichee.Bluetooth

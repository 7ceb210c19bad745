import Lichee.Base.Words

/- Socket buffers (hciattach_rtk.c). A buffer is a block of `max_len` bytes of which the
   first `data_len` are in use. Putting bytes behind them fails where the block ends;
   pulling more bytes than there are wraps `data_len` around, and the copy the code then
   asks `malloc` for is refused, which ends the program. -/
namespace Lichee.Bluetooth
open Base

/-- A `struct sk_buff`: the `data_len` bytes in use, and what the block holds behind them. -/
structure SkBuff where
  data : List UInt8
  rest : List UInt8
  deriving DecidableEq, Repr

namespace SkBuff

def maxLen (skb : SkBuff) : Nat := skb.data.length + skb.rest.length

/-- The block from `skb->data[0]` on. -/
def block (skb : SkBuff) : List UInt8 := skb.data ++ skb.rest

end SkBuff

/-- `skb_alloc`, of memory there is. -/
def skbAlloc (len : Nat) : SkBuff := ⟨[], zeros len⟩

/-- `skb_put` and the copy to where it points; `none` where it returns NULL. -/
def skbPut (skb : SkBuff) (bytes : List UInt8) : Option SkBuff :=
  if skb.data.length + bytes.length > skb.maxLen then none
  else some ⟨skb.data ++ bytes, skb.rest.drop bytes.length⟩

/-- `skb_trim`: a buffer that is not longer is left alone. -/
def skbTrim (skb : SkBuff) (len : Nat) : SkBuff :=
  if skb.data.length > len then ⟨skb.data.take len, skb.data.drop len ++ skb.rest⟩ else skb

/-- `skb_pull`: what is left is copied to the front of the block, over what was there.
`none` where `malloc` is asked for the wrapped length. -/
def skbPull (skb : SkBuff) (len : Nat) : Option SkBuff :=
  if len > skb.data.length then none
  else some ⟨skb.data.drop len, skb.block.drop (skb.data.length - len)⟩

@[simp] theorem skbAlloc_data (len : Nat) : (skbAlloc len).data = [] := rfl

@[simp] theorem skbAlloc_maxLen (len : Nat) : (skbAlloc len).maxLen = len := by
  simp [skbAlloc, SkBuff.maxLen]

/-- Bytes the block has room for are put, and the block stays as large as it was. -/
theorem skbPut_room (skb : SkBuff) (bytes : List UInt8)
    (h : skb.data.length + bytes.length ≤ skb.maxLen) :
    ∃ skb', skbPut skb bytes = some skb' ∧ skb'.data = skb.data ++ bytes ∧
      skb'.maxLen = skb.maxLen := by
  refine ⟨_, if_neg (Nat.not_lt.mpr h), rfl, ?_⟩
  unfold SkBuff.maxLen at h ⊢
  simp only [List.length_append, List.length_drop]
  omega

theorem skbTrim_data (skb : SkBuff) (len : Nat) (h : len ≤ skb.data.length) :
    (skbTrim skb len).data = skb.data.take len := by
  unfold skbTrim
  split
  · rfl
  · next hn => rw [List.take_of_length_le (by omega)]

/-- As many bytes as there are can be pulled. -/
theorem skbPull_some (skb : SkBuff) (len : Nat) (h : len ≤ skb.data.length) :
    ∃ skb', skbPull skb len = some skb' ∧ skb'.data = skb.data.drop len :=
  ⟨_, if_neg (Nat.not_lt.mpr h), rfl⟩

theorem skbPull_none (skb : SkBuff) (len : Nat) (h : skb.data.length < len) :
    skbPull skb len = none := if_pos h

end Lichee.Bluetooth

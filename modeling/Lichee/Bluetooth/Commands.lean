import Lichee.Base.Once
import Lichee.Bluetooth.Packets
import Lichee.Bluetooth.Retries

/- The commands of an attach, read off the lines written. The command that is kept for a retry is
   the last one on the line (`LastKept`), so a handler that writes it again says nothing new, and
   what is no command leaves the commands alone (`Idle`). -/
namespace Lichee.Bluetooth
open Base

/-! ## The command that is kept -/

/-- The command that is kept for a retry is the last one on the line. -/
def LastKept (h : Hw) : Prop :=
  ∀ nskb, h.hostLastCmd = some nskb →
    ∃ cmd, commandOf nskb.data = some cmd ∧ (commands h.log).getLast? = some cmd

section LastKept
variable {freed : Hw → List UInt8 → UInt8} {h h' : Hw}

theorem commands_note {w : List UInt8} (hw : commandOf w = none) :
    commands (h.note (.wrote w)).log = commands h.log := by
  show commands (h.log ++ [w].map .wrote) = _
  rw [commands_append, commands_others (List.forall_mem_singleton.mpr hw), List.append_nil]

theorem commands_resync (ns : List SeqNo) : commands (ns.map .resync) = [] := by
  refine List.filterMap_eq_nil_iff.mpr fun e he => ?_
  obtain ⟨n, -, rfl⟩ := List.mem_map.mp he
  rfl

/-- What writes no command, and keeps none but the last. -/
theorem LastKept.quiet (hk : LastKept h) (hlog : commands h'.log = commands h.log)
    (hlast : h'.hostLastCmd = h.hostLastCmd ∨ h'.hostLastCmd = none) : LastKept h' := by
  intro nskb hn
  rcases hlast with hsame | hnone
  · rw [hlog]
    exact hk nskb (hsame ▸ hn)
  · rw [hnone] at hn
    cases hn

/-- A command is written and kept. -/
theorem lastKept_command {cmd : List UInt8} (hlog : commands h'.log = commands h.log ++ [cmd])
    (hlast : ∀ nskb, h'.hostLastCmd = some nskb → commandOf nskb.data = some cmd) :
    LastKept h' := by
  intro nskb hn
  rw [hlog]
  exact ⟨cmd, hlast nskb hn, List.getLast?_concat⟩

/-- A frame is no command, and what is written on it is none. -/
theorem Framed.commands {skb : SkBuff} (hf : Framed h skb h') :
    Bluetooth.commands h'.log = Bluetooth.commands h.log := by
  obtain ⟨ws, hlog, hws⟩ := hf.log
  rw [hlog, commands_append]
  show _ ++ Bluetooth.commands (ws.map .wrote) = _
  rw [commands_others fun w hw => (hws w hw).command, List.append_nil]

theorem Kept.commands (hk : Kept h h') : Bluetooth.commands h'.log = Bluetooth.commands h.log := by
  obtain ⟨ns, hlog⟩ := hk.log
  rw [hlog, commands_append, commands_resync, List.append_nil]

theorem ack_commands (hok : rtkSendPureAckDown h = .ok h') : commands h'.log = commands h.log := by
  rw [rtkSendPureAckDown_wrote hok]
  exact commands_note (commandOf_ack h)

theorem pattern_commands {a : Alarm} {p : List UInt8} (hp : a.pattern = some p)
    (hok : writePacket h p H5_LINK_CTL_PKT false = .ok h') :
    commands h'.log = commands h.log ∧ h'.hostLastCmd = h.hostLastCmd := by
  obtain ⟨rel, nskb, hrel, rfl, hline⟩ := writePacket_ok hok
  refine ⟨commands_note (h := h.prepared rel) ?_, rfl⟩
  rw [hline]
  refine commandOf_other h hrel ?_ (by decide)
  cases a <;> cases hp <;> decide

/-- A command that is sent is read back. -/
theorem command_commands {cmd : List UInt8} (hlen : cmd.length ≤ 4095)
    (hok : writePacket h cmd HCI_COMMAND_PKT true = .ok h') :
    commands h'.log = commands h.log ++ [cmd] ∧
      ∀ nskb, h'.hostLastCmd = some nskb → commandOf nskb.data = some cmd := by
  obtain ⟨rel, nskb, hrel, rfl, hline⟩ := writePacket_ok hok
  cases hrel
  have hcmd : commandOf nskb.data = some cmd := by
    rw [hline, commandOf_command h hlen]
  refine ⟨?_, fun nskb' hn => ?_⟩
  · show commands (h.log ++ [.wrote nskb.data]) = _
    rw [commands_append, commands_wrote hcmd]
  · cases hn
    exact hcmd

/-- The last command again. -/
theorem LastKept.again (hk : LastKept h) : LastKept h.writeAgain ∧
    once (commands h.writeAgain.log) = once (commands h.log) := by
  unfold Hw.writeAgain
  split
  · next nskb hn =>
    obtain ⟨cmd, hcmd, hlast⟩ := hk nskb hn
    have hlog : commands (h.note (.wrote nskb.data)).log = commands h.log ++ [cmd] := by
      rw [Hw.note, commands_append, commands_wrote hcmd]
    refine ⟨lastKept_command hlog fun nskb' hn' => ?_, by rw [hlog, once_again hlast]⟩
    cases hn.symm.trans hn'
    exact hcmd
  · exact ⟨hk, rfl⟩

theorem Act.lastKept {a : Option Alarm} (hact : Act freed a h h') (hcrc : h.useCrc = false)
    (hk : LastKept h) : LastKept h' := by
  cases hact with
  | ack hok =>
    refine hk.quiet (ack_commands hok) (.inl ?_)
    rw [rtkSendPureAckDown_wrote hok]
    rfl
  | command cmd hup hlen hok =>
    obtain ⟨hlog, hlast⟩ := command_commands hlen hok
    exact lastKept_command hlog hlast
  | patch index len data hup hok =>
    obtain ⟨hlog, hlast⟩ := hciDownloadPatch_commands hok
    exact lastKept_command hlog hlast
  | recv hok =>
    rcases recvStep_frame hok with hkept | ⟨skb, -, hdone⟩
    · exact hk.quiet hkept.commands (.inl hkept.last)
    · have hf := h5CompleteRxPkt_framed hcrc hdone
      exact hk.quiet hf.commands hf.last
  | commands rom hci => exact hk.quiet rfl (.inl rfl)
  | patchLink d hup => exact hk.quiet rfl (.inl rfl)
  | pattern hp hok =>
    obtain ⟨hlog, hlast⟩ := pattern_commands hp hok
    exact hk.quiet hlog (.inl hlast)
  | again ha => exact hk.again.1

end LastKept

/-! ## What leaves the count alone -/

/-- No command is sent, but the last one again. -/
structure Idle (h h' : Hw) : Prop where
  number : h'.msgqTxseq = h.msgqTxseq
  commands : once (commands h'.log) = once (commands h.log)
  rom : h.romVersionCmdState.sent = true → h'.romVersionCmdState.sent = true
  hci : h.hciVersionCmdState.sent = true → h'.hciVersionCmdState.sent = true
  rank : h.linkEstabState.rank ≤ h'.linkEstabState.rank
  asleep : h.linkEstabState ≠ .init → h'.romVersionCmdState = h.romVersionCmdState

theorem Idle.refl (h : Hw) : Idle h h := ⟨rfl, rfl, id, id, Nat.le_refl _, fun _ => rfl⟩

/-- A state that only an event moves has been sent for if it was before. -/
theorem sent_of_received {c c' : CmdState} (h : c' = c ∨ c' = .eventReceived) :
    c.sent = true → c'.sent = true := by
  rcases h with rfl | rfl
  · exact id
  · exact fun _ => rfl

section Idle
variable {freed : Hw → List UInt8 → UInt8} {h h' : Hw}

theorem recv_idle {byte : UInt8} {ptr l : List UInt8} (hcrc : h.useCrc = false)
    (hok : recvStep freed (h, byte :: ptr) = .ok (h', l)) : Idle h h' := by
  rcases recvStep_frame hok with hk | ⟨skb, -, hdone⟩
  · exact ⟨hk.number, congrArg once hk.commands, hk.rom ▸ id, hk.hci ▸ id,
      Nat.le_of_eq (congrArg _ hk.link.symm), fun _ => hk.rom⟩
  · have hf := h5CompleteRxPkt_framed hcrc hdone
    exact ⟨hf.number, congrArg once hf.commands, sent_of_received hf.rom, sent_of_received hf.hci,
      hf.rank, hf.asleep⟩

theorem ack_idle (hok : rtkSendPureAckDown h = .ok h') : Idle h h' := by
  have hlog := ack_commands hok
  rw [rtkSendPureAckDown_wrote hok] at hlog ⊢
  exact { Idle.refl h with commands := congrArg once hlog }

theorem pattern_idle {a : Alarm} {p : List UInt8} (hp : a.pattern = some p)
    (hok : writePacket h p H5_LINK_CTL_PKT false = .ok h') : Idle h h' := by
  have hlog := (pattern_commands hp hok).1
  obtain ⟨rel, nskb, hrel, rfl, -⟩ := writePacket_ok hok
  cases hrel
  exact { Idle.refl h with commands := congrArg once hlog }

theorem again_idle (hk : LastKept h) : Idle h h.writeAgain := by
  have hlog := hk.again.2
  unfold Hw.writeAgain at hlog ⊢
  split
  · next nskb hn =>
    rw [hn] at hlog
    exact { Idle.refl h with commands := hlog }
  · exact .refl h

end Idle

end Lichee.Bluetooth

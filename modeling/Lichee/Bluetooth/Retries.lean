import Lichee.Bluetooth.Handshake

/- What the program writes again. A command keeps its number for as long as it is written again, and
   the next one has the next number: `transmit` reads this off the log, and accepts every run
   (`attach_numbers`), so a controller that drops what it has seen takes every command once. The
   handlers count in `static` variables which nothing sets back, so there are no more than so many
   patterns and repetitions in a whole run, and a handler gives up when its own are used up
   (`attach_retries`). -/
namespace Lichee.Bluetooth
open Base

/-! ## The commands on the line -/

/-- What was written: the last command, how many there were, and how often one was written again. -/
structure Sent where
  last : Option (List UInt8)
  commands : Nat
  repeats : Nat
  deriving DecidableEq, Repr

/-- A reliable packet is the last one again, or has the next number. -/
def Event.transmit (t : Sent) : Event → Option Sent
  | .wrote w =>
    match numberOf w with
    | none => some t
    | some n =>
      if t.last = some w then some { t with repeats := t.repeats + 1 }
      else if n = Fin.ofNat 8 t.commands then
        some { t with last := some w, commands := t.commands + 1 }
      else none
  | _ => some t

/-- The commands of a log, if they are numbered so. -/
def transmit (log : List Event) : Option Sent := log.foldlM Event.transmit ⟨none, 0, 0⟩

theorem transmit_append (log es : List Event) :
    transmit (log ++ es) = (transmit log).bind fun t => es.foldlM Event.transmit t := by
  rw [transmit, List.foldlM_append]
  rfl

theorem transmit_snoc {log : List Event} {t : Sent} (h : transmit log = some t) (e : Event) :
    transmit (log ++ [e]) = e.transmit t := by
  rw [transmit_append, h]
  simp only [Option.bind_some, List.foldlM_cons, List.foldlM_nil, bind_pure]

/-- What is no command changes nothing. -/
theorem transmit_others {log : List Event} {t : Sent} (h : transmit log = some t) :
    ∀ es : List Event, (∀ e ∈ es, e.isCommand = false) → transmit (log ++ es) = some t := by
  intro es
  induction es generalizing log with
  | nil =>
    intro _
    rwa [List.append_nil]
  | cons e es ih =>
    intro hes
    have he := hes e List.mem_cons_self
    rw [List.append_cons]
    refine ih ?_ fun e' he' => hes e' (List.mem_cons_of_mem _ he')
    rw [transmit_snoc h]
    cases e with
    | wrote w =>
      rw [Event.isCommand, Option.isSome_eq_false_iff, Option.isNone_iff_eq_none] at he
      rw [Event.transmit, he]
    | _ => rfl

/-- The numbers of a state: the commands in its log are numbered, the next number is their count,
and the command that is kept is the last of them. -/
structure Numbered (h : Hw) (t : Sent) : Prop where
  log : transmit h.log = some t
  next : h.msgqTxseq = Fin.ofNat 8 t.commands
  kept : ∀ nskb, h.hostLastCmd = some nskb → t.last = some nskb.data
  last : ∀ w, t.last = some w → numberOf w = some (h.msgqTxseq - 1)

namespace Numbered
variable {h h' : Hw} {t : Sent}

/-- What is no command leaves the numbers. -/
theorem others (hn : Numbered h t) (hseq : h'.msgqTxseq = h.msgqTxseq)
    (hlast : h'.hostLastCmd = h.hostLastCmd ∨ h'.hostLastCmd = none) {es : List Event}
    (hes : ∀ e ∈ es, e.isCommand = false) (hlog : h'.log = h.log ++ es) : Numbered h' t := by
  refine ⟨?_, hseq.trans hn.next, fun nskb hk => ?_, fun w hw => ?_⟩
  · rw [hlog]
    exact transmit_others hn.log es hes
  · rcases hlast with heq | hnone
    · exact hn.kept nskb (heq ▸ hk)
    · rw [hnone] at hk
      cases hk
  · rw [hseq]
    exact hn.last w hw

/-- The next command takes the next number. -/
theorem command (hn : Numbered h t) {w : List UInt8} (hw : numberOf w = some h.msgqTxseq)
    (hseq : h'.msgqTxseq = h.msgqTxseq + 1)
    (hlast : ∀ nskb, h'.hostLastCmd = some nskb → nskb.data = w) {es : List Event}
    (hes : ∀ e ∈ es, e.isCommand = false) (hlog : h'.log = h.log ++ es ++ [.wrote w]) :
    Numbered h' { t with last := some w, commands := t.commands + 1 } := by
  have hsucc : ∀ n : SeqNo, n + 1 - 1 = n := by decide
  have hpred : ∀ n : SeqNo, n - 1 ≠ n := by decide
  have hnew : t.last ≠ some w := by
    intro heq
    have hold := hn.last w heq
    rw [hw] at hold
    exact hpred _ (Option.some.inj hold).symm
  refine ⟨?_, ?_, ?_, ?_⟩
  · rw [hlog, transmit_snoc (transmit_others hn.log es hes), Event.transmit, hw]
    dsimp only
    rw [if_neg hnew, if_pos hn.next]
  · rw [hseq, hn.next]
    simp only [Fin.ext_iff, Fin.val_add, Fin.ofNat]
    omega
  · intro nskb hk
    rw [hlast nskb hk]
  · intro w' hw'
    cases hw'
    rw [hseq, hsucc]
    exact hw

/-- The last command again is counted as a repetition. -/
theorem again (hn : Numbered h t) : ∃ t', Numbered h.writeAgain t' ∧ t'.commands = t.commands ∧
    t.repeats ≤ t'.repeats ∧ t'.repeats ≤ t.repeats + 1 := by
  unfold Hw.writeAgain
  split
  · next nskb hk =>
    have hlast := hn.kept nskb hk
    refine ⟨{ t with repeats := t.repeats + 1 }, ⟨?_, hn.next, ?_, ?_⟩, rfl, Nat.le_succ _,
      Nat.le_refl _⟩
    · rw [Hw.note, transmit_snoc hn.log, Event.transmit, hn.last _ hlast]
      dsimp only
      rw [if_pos hlast]
    · exact hn.kept
    · exact hn.last
  · exact ⟨t, hn, rfl, Nat.le_refl _, Nat.le_succ _⟩

end Numbered

/-! ## Acts -/

/-- No pattern was written. -/
def Event.NoPattern (e : Event) : Prop :=
  isPattern h5sync e = false ∧ isPattern h5confPattern e = false

/-- What a frame adds to the log: no command and no pattern. -/
theorem replies_quiet (f : List UInt8) {ws : List (List UInt8)} (hws : ∀ w ∈ ws, Reply w) :
    ∀ e ∈ Event.frame f :: ws.map Event.wrote, e.isCommand = false ∧ e.NoPattern := by
  intro e he
  rcases List.mem_cons.mp he with rfl | he
  · exact ⟨rfl, rfl, rfl⟩
  · obtain ⟨w, hw, rfl⟩ := List.mem_map.mp he
    have hr := hws w hw
    refine ⟨?_, hr.sync, hr.config⟩
    rw [Event.isCommand, hr.number]
    rfl

section Acts
variable {freed : Hw → List UInt8 → UInt8} {h h' : Hw} {t : Sent}

/-- Without a handler nothing is repeated, and no pattern is written. -/
theorem Act.numbered (hact : Act freed none h h') (hcrc : h.useCrc = false) (hn : Numbered h t) :
    ∃ t' es, Numbered h' t' ∧ t'.repeats = t.repeats ∧ h'.log = h.log ++ es ∧
      ∀ e ∈ es, e.NoPattern := by
  cases hact with
  | ack hok =>
    have hr := reply_ack h hcrc
    have hes : ∀ e ∈ [Event.wrote (line h [] H5_ACK_PKT false)], e.isCommand = false ∧
        e.NoPattern := by
      rw [List.forall_mem_singleton, Event.isCommand, hr.number]
      exact ⟨rfl, hr.sync, hr.config⟩
    rw [rtkSendPureAckDown_wrote hok]
    exact ⟨t, _, hn.others rfl (.inl rfl) (fun e he => (hes e he).1) rfl, rfl, rfl,
      fun e he => (hes e he).2⟩
  | command cmd hup hlen hok =>
    obtain ⟨rel, nskb, hrel, rfl, hline⟩ := writePacket_ok hok
    cases hrel
    have hw : numberOf nskb.data = some h.msgqTxseq := by
      rw [hline, numberOf_line h hcrc]
      rfl
    refine ⟨_, [.wrote nskb.data], hn.command hw rfl ?_ (List.forall_mem_nil _) ?_, rfl, rfl, ?_⟩
    · intro nskb' hk
      cases hk
      rfl
    · rw [List.append_nil]
      rfl
    · rw [List.forall_mem_singleton]
      exact ⟨isPattern_of_number hw _, isPattern_of_number hw _⟩
  | patch index len data hup hok =>
    obtain ⟨nskb, rfl, hline⟩ := hciDownloadPatch_ok hok
    have hw : numberOf nskb.data = some h.msgqTxseq := by
      rw [hline]
      exact numberOf_line (h.indexed index) hcrc _ _ _
    refine ⟨_, [.patch index (patchData data len), .wrote nskb.data],
      hn.command hw rfl ?_ (List.forall_mem_singleton.mpr rfl) rfl, rfl, List.append_assoc _ _ _,
      ?_⟩
    · intro nskb' hk
      cases hk
      rfl
    · intro e he
      rcases List.mem_pair.mp he with rfl | rfl
      · exact ⟨rfl, rfl⟩
      · exact ⟨isPattern_of_number hw _, isPattern_of_number hw _⟩
  | recv hok =>
    rcases recvStep_frame hok with hk | ⟨skb, -, hdone⟩
    -- no frame is completed, and nothing is written
    · obtain ⟨ns, hlog⟩ := hk.log
      refine ⟨t, _, hn.others hk.number (.inl hk.last) ?_ hlog, rfl, hlog, ?_⟩
      · intro e he
        obtain ⟨n, -, rfl⟩ := List.mem_map.mp he
        rfl
      · intro e he
        obtain ⟨n, -, rfl⟩ := List.mem_map.mp he
        exact ⟨rfl, rfl⟩
    · have hf := h5CompleteRxPkt_framed hcrc hdone
      obtain ⟨ws, hlog, hws⟩ := hf.log
      have hes := replies_quiet skb.data hws
      exact ⟨t, _, hn.others hf.number hf.last (fun e he => (hes e he).1) hlog, rfl, hlog,
        fun e he => (hes e he).2⟩
  | commands rom hci =>
    exact ⟨t, [], hn.others rfl (.inl rfl) (List.forall_mem_nil _) (List.append_nil _).symm, rfl,
      (List.append_nil _).symm, List.forall_mem_nil _⟩
  | patchLink d hup =>
    exact ⟨t, [], hn.others rfl (.inl rfl) (List.forall_mem_nil _) (List.append_nil _).symm, rfl,
      (List.append_nil _).symm, List.forall_mem_nil _⟩

/-- How often a pattern was written. -/
def patterns (p : List UInt8) (log : List Event) : Nat := log.countP (isPattern p)

theorem patterns_append (p : List UInt8) (log es : List Event) :
    patterns p (log ++ es) = patterns p log + patterns p es := List.countP_append

theorem patterns_quiet {es : List Event} (hes : ∀ e ∈ es, e.NoPattern) :
    patterns h5sync es = 0 ∧ patterns h5confPattern es = 0 := by
  simp only [patterns, List.countP_eq_zero]
  exact ⟨fun e he => Bool.eq_false_iff.mp (hes e he).1,
    fun e he => Bool.eq_false_iff.mp (hes e he).2⟩

/-- A handler of a pattern writes it once. -/
theorem pattern_numbered {a : Alarm} {p : List UInt8} (hp : a.pattern = some p)
    (hcrc : h.useCrc = false) (hn : Numbered h t)
    (hok : writePacket h p H5_LINK_CTL_PKT false = .ok h') : Numbered h' t ∧
      patterns h5sync h'.log = patterns h5sync h.log + (if a = .tsync then 1 else 0) ∧
      patterns h5confPattern h'.log = patterns h5confPattern h.log +
        (if a = .tconf then 1 else 0) := by
  obtain ⟨rel, nskb, hrel, rfl, hline⟩ := writePacket_ok hok
  cases hrel
  rw [line_pattern h hcrc] at hline
  have hlog : ((h.prepared false).sent nskb false).log =
      h.log ++ [.wrote (linkCtl h.rxseqTxack p)] := by
    rw [← hline]
    rfl
  refine ⟨hn.others rfl (.inl rfl) ?_ hlog, ?_⟩
  · rw [List.forall_mem_singleton, Event.isCommand, numberOf_linkCtl]
    rfl
  · rw [hlog, patterns_append, patterns_append]
    have hself := isPattern_linkCtl h.rxseqTxack p
    obtain ⟨hsync, hconf⟩ := isPattern_other h.rxseqTxack
    cases a <;> cases hp <;> simp [patterns, hself, hsync, hconf]

/-- So it is over any acts without a handler. -/
theorem Acts.numbered (hacts : Acts freed h h') (hcrc : h.useCrc = false) (hn : Numbered h t) :
    ∃ t', Numbered h' t' ∧ t'.repeats = t.repeats ∧
      patterns h5sync h'.log = patterns h5sync h.log ∧
      patterns h5confPattern h'.log = patterns h5confPattern h.log ∧ h'.useCrc = false := by
  induction hacts with
  | refl => exact ⟨t, hn, rfl, rfl, rfl, hcrc⟩
  | tail _ hact ih =>
    obtain ⟨t₁, hn₁, hrep₁, hsync₁, hconf₁, hcrc₁⟩ := ih
    obtain ⟨t₂, es, hn₂, hrep₂, hlog, hes⟩ := hact.numbered hcrc₁ hn₁
    obtain ⟨hsync, hconf⟩ := patterns_quiet hes
    refine ⟨t₂, hn₂, hrep₂.trans hrep₁, ?_, ?_, hact.crc hcrc₁⟩
    · rw [hlog, patterns_append, hsync, hsync₁, Nat.add_zero]
    · rw [hlog, patterns_append, hconf, hconf₁, Nat.add_zero]

end Acts

/-! ## The run -/

namespace Attach
variable {freed : Hw → List UInt8 → UInt8} {b : Board} {s s' : Attach}

/-- How often a handler has written the last command again, at most. -/
def repetitions (s : Attach) : Nat :=
  s.retries .tinit + s.retries .tpatch + s.retries .eversion + s.retries .lmpVersion

/-- What the counters say of the line. -/
structure Tallied (s : Attach) : Prop where
  commands : ∃ t, Numbered s.hw t ∧ t.repeats ≤ s.repetitions
  sync : patterns h5sync s.hw.log = s.retries .tsync
  config : patterns h5confPattern s.hw.log = s.retries .tconf
  room : ∀ a, s.retries a ≤ H5_MAX_RETRY_COUNT

/-- Without a handler the counters stay. -/
theorem Tallied.goes (ht : Tallied s) (hcrc : s.hw.useCrc = false) (hg : Goes freed s s') :
    Tallied s' := by
  obtain ⟨⟨t, hn, hrep⟩, hsync, hconf, hroom⟩ := ht
  obtain ⟨t', hn', hrep', hsync', hconf', -⟩ := hg.acts.numbered hcrc hn
  refine ⟨⟨t', hn', ?_⟩, ?_, ?_, ?_⟩
  · rw [repetitions, hg.retries, hrep']
    exact hrep
  · rw [hsync', hsync, hg.retries]
  · rw [hconf', hconf, hg.retries]
  · rw [hg.retries]
    exact hroom

/-- A handler counts what it writes. -/
theorem Tallied.counts {a : Alarm} (ht : Tallied s) (hcrc : s.hw.useCrc = false)
    (hc : Counts freed a s s') : Tallied s' := by
  obtain ⟨⟨t, hn, hrep⟩, hsync, hconf, hroom⟩ := ht
  have hroom' : ∀ c, s'.retries c ≤ H5_MAX_RETRY_COUNT := by
    intro c
    rw [hc.retries]
    dsimp only
    split
    · exact hc.room
    · exact hroom c
  obtain ⟨hact, -, hret⟩ := hc
  generalize hh : s.hw = h at hact hn hsync hconf hcrc
  generalize hh' : s'.hw = h' at hact
  cases hact with
  | pattern hp hok =>
    obtain ⟨hn', hsync', hconf'⟩ := pattern_numbered hp hcrc hn hok
    refine ⟨⟨t, hh' ▸ hn', ?_⟩, ?_, ?_, hroom'⟩
    · refine hrep.trans ?_
      unfold repetitions
      cases a <;> cases hp <;> simp [hret]
    · rw [hh', hsync', hsync, hret]
      cases a <;> cases hp <;> simp
    · rw [hh', hconf', hconf, hret]
      cases a <;> cases hp <;> simp
  | again ha =>
    obtain ⟨t', hn', -, -, hrep'⟩ := hn.again
    have hlog : ∀ p, patterns p h.writeAgain.log = patterns p h.log := by
      intro p
      unfold Hw.writeAgain
      split
      · next nskb hk =>
        -- what is written again is a command, and so no pattern
        have hnum := hn.last _ (hn.kept nskb hk)
        rw [Hw.note, patterns_append]
        simp only [patterns, List.countP_singleton, isPattern_of_number hnum p,
          Bool.false_eq_true, if_false, Nat.add_zero]
      · rfl
    refine ⟨⟨t', hh' ▸ hn', ?_⟩, ?_, ?_, hroom'⟩
    · refine hrep'.trans ?_
      unfold repetitions at hrep ⊢
      cases a <;> cases ha <;> simp [hret] <;> omega
    · rw [hh', hlog, hsync, hret]
      cases a <;> cases ha <;> simp
    · rw [hh', hlog, hconf, hret]
      cases a <;> cases ha <;> simp

theorem tallied_start (hok : start = .ok s) : Tallied s := by
  obtain ⟨-, -, ⟨h, hw, hs⟩, hret⟩ := start_ok hok
  have hinit : Numbered rtkInit ⟨none, 0, 0⟩ :=
    ⟨rfl, rfl, fun _ hk => (nomatch hk), fun _ hk => (nomatch hk)⟩
  have hp : Alarm.pattern .tsync = some h5sync := rfl
  obtain ⟨hn, hsync, hconf⟩ := pattern_numbered hp rfl hinit hw
  refine ⟨⟨_, hs ▸ hn, Nat.zero_le _⟩, ?_, ?_, fun a => ?_⟩
  · rw [hs, hsync, hret]
    rfl
  · rw [hs, hconf, hret]
    rfl
  · rw [hret]
    dsimp only
    split <;> decide

theorem Reachable.tallied (hs : Reachable freed b s) : Tallied s := by
  induction hs with
  | start hok => exact tallied_start hok
  | step hr hstep ih =>
    rcases hstep.acts freed hr.sound with hg | ⟨a, hc⟩
    · exact ih.goes hr.sound.crc hg
    · exact ih.counts hr.sound.crc hc

/-- A handler that gave up had used up its counter, or had no command to write. -/
def GaveUp (s : Attach) : Prop :=
  ∀ a, s.pc = .timedOut a →
    s.retries a = H5_MAX_RETRY_COUNT ∨ a = .tinit ∧ s.hw.hostLastCmd = none

theorem patternAlarm_gaveUp {a : Alarm} {p : List UInt8} (hok : patternAlarm a p s = .ok s')
    (hroom : s.retries a ≤ H5_MAX_RETRY_COUNT) (hpc : ∀ c, s.pc ≠ .timedOut c) : GaveUp s' := by
  unfold patternAlarm at hok
  split at hok
  · obtain ⟨h, -, hok⟩ := bind_eq_ok.mp hok
    cases hok
    intro c hc
    exact absurd hc (hpc c)
  · next hfull =>
    cases hok
    intro c hc
    cases hc
    exact .inl (Nat.le_antisymm hroom (Nat.not_lt.mp hfull))

theorem commandAlarm_gaveUp {a : Alarm} (hroom : s.retries a ≤ H5_MAX_RETRY_COUNT)
    (hpc : ∀ c, s.pc ≠ .timedOut c) : GaveUp (commandAlarm a s) := by
  unfold commandAlarm
  split
  · intro c hc
    exact absurd hc (hpc c)
  · next hfull =>
    intro c hc
    cases hc
    exact .inl (Nat.le_antisymm hroom (Nat.not_lt.mp hfull))

theorem run_gaveUp {a : Alarm} (hroom : s.retries a ≤ H5_MAX_RETRY_COUNT)
    (hpc : ∀ c, s.pc ≠ .timedOut c) (hok : a.run s = .ok s') : GaveUp s' := by
  cases a with
  | tsync => exact patternAlarm_gaveUp hok hroom hpc
  | tconf => exact patternAlarm_gaveUp hok hroom hpc
  | tinit =>
    cases hok
    unfold h5TinitSigAlarm
    split
    · split
      · intro c hc
        exact absurd hc (hpc c)
      · next hlast =>
        intro c hc
        cases hc
        exact .inr ⟨rfl, Option.not_isSome_iff_eq_none.mp hlast⟩
    · next hfull =>
      intro c hc
      cases hc
      exact .inl (Nat.le_antisymm hroom (Nat.not_lt.mp hfull))
  | tpatch =>
    cases hok
    exact commandAlarm_gaveUp hroom hpc
  | eversion =>
    cases hok
    exact commandAlarm_gaveUp hroom hpc
  | lmpVersion =>
    cases hok
    exact commandAlarm_gaveUp hroom hpc

/-- A program in a loop has not given up. -/
theorem not_timedOut (hrun : s.running = true) (c : Alarm) : s.pc ≠ .timedOut c := by
  intro hpc
  unfold running at hrun
  rw [hpc] at hrun
  cases hrun

theorem gaveUp_running (hpc : ∀ c, s.pc ≠ .timedOut c) : GaveUp s := fun c hc => absurd hc (hpc c)

theorem gaveUp_onward (hpc : s.pc.Onward) : GaveUp s := by
  intro c hc
  rw [hc] at hpc
  exact hpc.elim

theorem Step.gaveUp (hs : Sound s) (hroom : ∀ a, s.retries a ≤ H5_MAX_RETRY_COUNT)
    (hstep : Step freed b s s') : GaveUp s' := by
  cases hstep with
  | alarm hrun harmed hok => exact run_gaveUp (hroom _) (not_timedOut hrun) hok
  | read chunk hptr hwait hlen =>
    exact gaveUp_running (not_timedOut (s := s) (running_of_waits hwait))
  | readFails hptr hwait hok =>
    have hl := readFails_leads freed hok (running_of_waits hwait) fun h2 => h2.trans hs.reached
    exact gaveUp_onward hl.onward
  | recv hrun hptr hok => exact gaveUp_running (not_timedOut (s := s) hrun)
  | exits hrun hptr herr => exact gaveUp_onward trivial
  | proceed hrun hptr hdone hok =>
    by_cases hsync : s.pc = .sync
    · unfold Attach.proceed at hok
      rw [hsync] at hok
      have hconf : patternAlarm .tconf h5confPattern { s.disarmed with pc := .config } = .ok s' :=
        hok
      refine patternAlarm_gaveUp hconf (hroom .tconf) fun c hc => ?_
      cases hc
    · have hl := proceed_leads freed hok hrun hsync (hs.up hrun hdone hsync)
      exact gaveUp_onward hl.onward

theorem Reachable.gaveUp (hs : Reachable freed b s) : GaveUp s := by
  cases hs with
  | start hok =>
    intro c hc
    rw [(start_ok hok).1] at hc
    cases hc
  | step hr hstep => exact hstep.gaveUp hr.sound hr.tallied.room

end Attach

/-- **The numbers on the line.** Whatever is read and whenever the timers end, the commands written
are numbered from zero on without a gap, a command that is written again is the last one byte for
byte, and there are no more of these than the four handlers of commands have counted, which is 160
in a whole run. -/
theorem attach_numbers (freed : Hw → List UInt8 → UInt8) {b : Board} {s : Attach}
    (hs : s.Reachable freed b) :
    ∃ t, transmit s.hw.log = some t ∧ s.hw.msgqTxseq = Fin.ofNat 8 t.commands ∧
      t.repeats ≤ s.repetitions ∧ s.repetitions ≤ 4 * H5_MAX_RETRY_COUNT := by
  have htally := hs.tallied
  obtain ⟨t, hn, hrep⟩ := htally.commands
  refine ⟨t, hn.log, hn.next, hrep, ?_⟩
  have h₁ := htally.room .tinit
  have h₂ := htally.room .tpatch
  have h₃ := htally.room .eversion
  have h₄ := htally.room .lmpVersion
  unfold Attach.repetitions
  omega

/-- The question for the first version, written twice. -/
theorem attach_numbers_lmp : ∃ s : Attach, s.Reachable (fun _ _ => 0) bareBoard ∧
    transmit s.hw.log =
      some ⟨some [0xc0, 0x80, 0x31, 0x00, 0x4e, 0x01, 0x10, 0x00, 0xc0], 1, 1⟩ ∧
    ∃ t, transmit s.hw.log = some t ∧ s.hw.msgqTxseq = Fin.ofNat 8 t.commands ∧
      t.repeats ≤ s.repetitions ∧ s.repetitions ≤ 4 * H5_MAX_RETRY_COUNT := by
  have hsent : (Attach.follow (fun _ _ => 0) bareBoard 20 (greetMoves ++ [.alarm])).map
      (fun s => transmit s.hw.log) =
      some (some ⟨some [0xc0, 0x80, 0x31, 0x00, 0x4e, 0x01, 0x10, 0x00, 0xc0], 1, 1⟩) := by
    decide +kernel
  obtain ⟨s, hs, hsent⟩ := Option.map_eq_some_iff.mp hsent
  have hr := Attach.follow_reachable hs
  exact ⟨s, hr, hsent, attach_numbers _ hr⟩

/-- **The retries.** The patterns written are as many as their handlers have counted, and no handler
counts beyond its limit; one that gives up has reached it, or is the one of the speed and finds no
command to write. -/
theorem attach_retries (freed : Hw → List UInt8 → UInt8) {b : Board} {s : Attach}
    (hs : s.Reachable freed b) :
    patterns h5sync s.hw.log = s.retries .tsync ∧
      patterns h5confPattern s.hw.log = s.retries .tconf ∧
      (∀ a, s.retries a ≤ H5_MAX_RETRY_COUNT) ∧
      ∀ a, s.pc = .timedOut a →
        s.retries a = H5_MAX_RETRY_COUNT ∨ a = .tinit ∧ s.hw.hostLastCmd = none :=
  ⟨hs.tallied.sync, hs.tallied.config, hs.tallied.room, hs.gaveUp⟩

/-- The second pattern, written twice. -/
theorem attach_retries_config : ∃ s : Attach, s.Reachable (fun _ _ => 0) bareBoard ∧
    s.retries .tconf = 2 ∧ patterns h5confPattern s.hw.log = 2 := by
  have hret : (Attach.follow (fun _ _ => 0) bareBoard 20 greetMoves).map (·.retries .tconf) =
      some 2 := by
    decide +kernel
  obtain ⟨s, hs, hret⟩ := Option.map_eq_some_iff.mp hret
  have hr := Attach.follow_reachable hs
  exact ⟨s, hr, hret, (attach_retries _ hr).2.1.trans hret⟩

end Lichee.Bluetooth

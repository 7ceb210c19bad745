import Lichee.Bluetooth.Acts

/- The link before the first command. The state of the link is a function of the frames completed,
   whatever the timers do in between: `Greeted` is the automaton that reads the log, and every run
   keeps the state the automaton is in (`Attach.Reachable.greets`). So no command is written before
   the controller has answered the two patterns, in their order (`attach_greets_first`). -/
namespace Lichee.Bluetooth
open Base

/-! ## A frame that answers -/

/-- A frame that is completed is as long as its header says. -/
theorem Completing.exact {h : Hw} (hR : Receiving h) {skb : SkBuff} (hc : Completing h skb) :
    skb.data.length = 4 + skb.payloadLen := by
  cases hc with
  | data skb hstate hcount hskb _ =>
    cases hR with
    | between hs _ => rcases hs with hs | hs <;> cases hstate.symm.trans hs
    | hdr s hs _ hs' _ => cases hstate.symm.trans hs'
    | data s hs _ _ hlen hsum _ =>
      cases hskb.symm.trans hs
      omega
    | crc s hs _ hs' _ _ _ => cases hstate.symm.trans hs'
  | crc skb hstate hcount hskb _ =>
    cases hR with
    | between hs _ => rcases hs with hs | hs <;> cases hstate.symm.trans hs
    | hdr s hs _ hs' _ => cases hstate.symm.trans hs'
    | data s hs _ hs' _ _ _ => cases hstate.symm.trans hs'
    | crc s hs _ _ hlen hsum _ =>
      cases hskb.symm.trans hs
      have hdata := skbTrim_data skb (skb.data.length - 2) (by omega)
      have hl : (skbTrim skb (skb.data.length - 2)).data.length = skb.data.length - 2 := by
        rw [hdata, List.length_take]
        omega
      have hkept : ∀ i < 4, (skbTrim skb (skb.data.length - 2)).byte i = skb.byte i := by
        intro i hi
        rw [byte_eq (by omega), byte_eq (by omega), hdata, List.getD_eq_getElem?_getD,
          List.getElem?_take_of_lt (by omega), List.getD_eq_getElem?_getD]
      have hp : (skbTrim skb (skb.data.length - 2)).payloadLen = skb.payloadLen := by
        rw [SkBuff.payloadLen, hkept 1 (by decide), hkept 2 (by decide)]
        rfl
      omega

/-- The payload of the frame begins with an answer. -/
def Answers (resp f : List UInt8) : Prop := (f.drop 4).take 2 = resp

/-- A shorter payload would be compared with bytes of the header, whose second gives its length. -/
theorem answers_of_starts {skb s : SkBuff} (hlen : skb.data.length = 4 + skb.payloadLen)
    (hpull : pull skb 4 = .ok s) {a c : UInt8} (hc : 2 ≤ (c >>> 4).toNat)
    (hstarts : s.starts [a, c] = true) : Answers [a, c] skb.data := by
  have hs : s = ⟨skb.data.drop 4, skb.block.drop (skb.data.length - 4)⟩ := by
    unfold pull skbPull at hpull
    rw [if_neg (by omega)] at hpull
    cases hpull
    rfl
  have htake : (skb.data.drop 4 ++ skb.block.drop (skb.data.length - 4)).take 2 = [a, c] := by
    rw [hs] at hstarts
    exact beq_iff_eq.mp hstarts
  have hpay : skb.payloadLen = (skb.byte 1 >>> 4).toNat + (skb.byte 2).toNat * 16 := rfl
  have hb1 : skb.block[1]? = some (skb.byte 1) := by
    have hlt : 1 < skb.block.length := by
      rw [SkBuff.block, List.length_append]
      omega
    rw [SkBuff.byte, List.getD_eq_getElem?_getD, List.getElem?_eq_getElem hlt]
    rfl
  have hsmall : skb.payloadLen ≤ 1 →
      (skb.data.drop 4 ++ skb.block.drop (skb.data.length - 4))[1]? = skb.block[1]? := by
    intro hle
    rw [List.getElem?_append_right (by rw [List.length_drop]; omega), List.length_drop,
      List.getElem?_drop]
    congr 1
    omega
  have hsecond : (skb.data.drop 4 ++ skb.block.drop (skb.data.length - 4))[1]? = some c := by
    have := congrArg (·[1]?) htake
    rwa [List.getElem?_take_of_lt (by decide)] at this
  -- with a shorter payload the second byte compared would be `skb.byte 1`
  by_cases htwo : 2 ≤ skb.payloadLen
  · rw [Answers, ← htake, List.take_append_of_le_length (by rw [List.length_drop]; omega)]
  · exfalso
    have hi := hsmall (by omega)
    rw [hsecond, hb1] at hi
    cases hi
    omega

/-! ## What acts keep -/

section Acts
variable {freed : Hw → List UInt8 → UInt8} {a : Option Alarm} {h h' : Hw}

/-- A packet that is written leaves the receiver alone. -/
theorem writePacket_kept {data : List UInt8} {pktType : UInt8} {keep : Bool}
    (hok : writePacket h data pktType keep = .ok h') :
    h'.useCrc = h.useCrc ∧ h'.linkEstabState = h.linkEstabState ∧
      (Receiving h → Receiving h') := by
  obtain ⟨rel, nskb, -, rfl, -⟩ := writePacket_ok hok
  exact ⟨rfl, rfl, fun hR => hR.congr rfl rfl rfl rfl⟩

theorem ack_kept (hok : rtkSendPureAckDown h = .ok h') :
    h'.useCrc = h.useCrc ∧ h'.linkEstabState = h.linkEstabState ∧
      (Receiving h → Receiving h') := by
  rw [rtkSendPureAckDown_wrote hok]
  exact ⟨rfl, rfl, fun hR => hR.congr rfl rfl rfl rfl⟩

theorem again_kept (h : Hw) : h.writeAgain.useCrc = h.useCrc ∧
    h.writeAgain.linkEstabState = h.linkEstabState ∧ (Receiving h → Receiving h.writeAgain) := by
  unfold Hw.writeAgain
  split
  · exact ⟨rfl, rfl, fun hR => hR.congr rfl rfl rfl rfl⟩
  · exact ⟨rfl, rfl, id⟩

theorem Act.crc (hact : Act freed a h h') (hcrc : h.useCrc = false) : h'.useCrc = false := by
  cases hact with
  | ack hok => exact (ack_kept hok).1.trans hcrc
  | command cmd hup hlen hok => exact (writePacket_kept hok).1.trans hcrc
  | patch index len data hup hok =>
    obtain ⟨nskb, rfl, -⟩ := hciDownloadPatch_ok hok
    exact hcrc
  | recv hok =>
    rcases recvStep_frame hok with hk | ⟨skb, -, hdone⟩
    · exact hk.crc.trans hcrc
    · exact (h5CompleteRxPkt_framed hcrc hdone).crc.trans hcrc
  | commands rom hci => exact hcrc
  | patchLink d hup => exact hcrc
  | pattern hp hok => exact (writePacket_kept hok).1.trans hcrc
  | again ha => exact (again_kept h).1.trans hcrc

theorem Act.receiving (hact : Act freed a h h') (hR : Receiving h) : Receiving h' := by
  cases hact with
  | ack hok => exact (ack_kept hok).2.2 hR
  | command cmd hup hlen hok => exact (writePacket_kept hok).2.2 hR
  | patch index len data hup hok =>
    obtain ⟨nskb, rfl, -⟩ := hciDownloadPatch_ok hok
    exact hR.patched _ _ _ _
  | recv hok =>
    obtain ⟨_, _, -, hcase⟩ := recvStep_ok hR rfl hok
    exact hcase.receiving hR
  | commands rom hci => exact hR.congr rfl rfl rfl rfl
  | patchLink d hup => exact hR.congr rfl rfl rfl rfl
  | pattern hp hok => exact (writePacket_kept hok).2.2 hR
  | again ha => exact (again_kept h).2.2 hR

/-- Once the patterns have been answered, they stay so. -/
theorem Act.rank {n : Nat} (hn : n ≤ 2) (hact : Act freed a h h') (hcrc : h.useCrc = false)
    (hle : n ≤ h.linkEstabState.rank) : n ≤ h'.linkEstabState.rank := by
  cases hact with
  | ack hok => exact (ack_kept hok).2.1 ▸ hle
  | command cmd hup hlen hok => exact (writePacket_kept hok).2.1 ▸ hle
  | patch index len data hup hok =>
    obtain ⟨nskb, rfl, -⟩ := hciDownloadPatch_ok hok
    exact hle
  | recv hok =>
    rcases recvStep_frame hok with hk | ⟨skb, -, hdone⟩
    · exact hk.link ▸ hle
    · exact hle.trans (h5CompleteRxPkt_framed hcrc hdone).rank
  | commands rom hci => exact hle
  | patchLink d hup => exact hn.trans (Nat.le_succ 2)
  | pattern hp hok => exact (writePacket_kept hok).2.1 ▸ hle
  | again ha => exact (again_kept h).2.1 ▸ hle

end Acts

theorem Pc.needs_le (pc : Pc) : pc.needs ≤ 2 := by
  cases pc <;> simp [Pc.needs]

namespace Attach
variable {freed : Hw → List UInt8 → UInt8} {b : Board} {s s' : Attach}

/-- What every act keeps, a step keeps. -/
theorem Step.keeps {P : Hw → Prop} (hP : ∀ a h h', Act freed a h h' → P h → P h') (hs : Sound s)
    (hstep : Step freed b s s') (h : P s.hw) : P s'.hw := by
  rcases hstep.acts freed hs with hg | ⟨a, hc⟩
  · have hacts : ∀ t, Acts freed s.hw t → P t := by
      intro t ht
      induction ht with
      | refl => exact h
      | tail _ hact ih => exact hP _ _ _ hact ih
    exact hacts _ hg.acts
  · exact hP _ _ _ hc.act h

/-- The loop a step leads to needs no more of the link than there is. -/
theorem Step.needs (hs : Sound s) (hstep : Step freed b s s') :
    s'.pc.needs ≤ s.hw.linkEstabState.rank := by
  cases hstep with
  | alarm hrun harmed hok =>
    rcases run_pc hok with hpc | hpc
    · rw [hpc]
      exact hs.reached
    · rw [hpc]
      exact Nat.zero_le _
  | read chunk hptr hwait hlen => exact hs.reached
  | readFails hptr hwait hok =>
    -- no loop needs more than two
    by_cases h2 : 2 ≤ s.pc.needs
    · exact (Pc.needs_le _).trans (h2.trans hs.reached)
    · have hend : s'.pc = .returned false ∨ s' = s := by
        unfold Attach.readFails at hok
        cases hpc : s.pc with
        | lmpVersion =>
          rw [hpc] at h2
          exact absurd (Nat.le_refl 2) h2
        | eversion =>
          rw [hpc] at h2
          exact absurd (Nat.le_refl 2) h2
        | changeSpeed =>
          rw [hpc] at h2
          exact absurd (Nat.le_refl 2) h2
        | patch d =>
          rw [hpc] at h2
          exact absurd (Nat.le_refl 2) h2
        | sync =>
          rw [hpc] at hok
          cases hok
          exact .inl rfl
        | config =>
          rw [hpc] at hok
          cases hok
          exact .inl rfl
        | _ =>
          rw [hpc] at hok
          cases hok
          exact .inr rfl
      rcases hend with hpc | rfl
      · rw [hpc]
        exact Nat.zero_le _
      · exact hs.reached
  | recv hrun hptr hok => exact hs.reached
  | exits hrun hptr herr => exact Nat.zero_le _
  | proceed hrun hptr hdone hok =>
    -- the first loop is left with the link initialised at least, which the second one needs
    by_cases hsync : s.pc = .sync
    · have hlink : 1 ≤ s.hw.linkEstabState.rank := by
        unfold waits at hdone
        rw [hsync] at hdone
        cases hl : s.hw.linkEstabState <;> simp [hl, LinkState.rank] at hdone ⊢
      unfold Attach.proceed at hok
      rw [hsync] at hok
      rcases patternAlarm_pc hok with hpc | hpc
      · rw [hpc]
        exact hlink
      · rw [hpc]
        exact Nat.zero_le _
    · exact (Pc.needs_le _).trans (hs.up hrun hdone hsync)

theorem Step.sound (hs : Sound s) (hstep : Step freed b s s') : Sound s' := by
  have hneeds := hstep.needs hs
  have hkept := hstep.keeps (P := fun h => h.useCrc = false ∧ Receiving h ∧
    s'.pc.needs ≤ h.linkEstabState.rank)
    (fun a h h' hact hh => ⟨hact.crc hh.1, hact.receiving hh.2.1,
      hact.rank (Pc.needs_le _) hh.1 hh.2.2⟩) hs ⟨hs.crc, hs.receiving, hneeds⟩
  exact ⟨hkept.1, hkept.2.1, hkept.2.2⟩

/-- The run begins with the first pattern. -/
theorem start_ok (hok : start = .ok s) : s.pc = .sync ∧ s.ptr = [] ∧
    (∃ h, writePacket rtkInit h5sync H5_LINK_CTL_PKT false = .ok h ∧ s.hw = h) ∧
    s.retries = fun b => if b = .tsync then 1 else 0 := by
  have hroom : (0 : Nat) < H5_MAX_RETRY_COUNT := by decide
  unfold start h5TsyncSigAlarm patternAlarm at hok
  rw [if_pos hroom] at hok
  obtain ⟨h, hw, hok⟩ := bind_eq_ok.mp hok
  cases hok
  exact ⟨rfl, rfl, ⟨h, hw, rfl⟩, rfl⟩

theorem sound_start (hok : start = .ok s) : Sound s := by
  obtain ⟨hpc, -, ⟨h, hw, hs⟩, -⟩ := start_ok hok
  obtain ⟨hcrc, -, hR⟩ := writePacket_kept hw
  refine ⟨hs ▸ hcrc, hs ▸ hR receiving_init, ?_⟩
  rw [hpc]
  exact Nat.zero_le _

theorem Reachable.sound (hs : Reachable freed b s) : Sound s := by
  induction hs with
  | start hok => exact sound_start hok
  | step _ hstep ih => exact hstep.sound ih

/-- A move is a few steps. -/
theorem move_reachable {fuel : Nat} {m : Move} (hs : Reachable freed b s)
    (hm : move freed b fuel s m = some s') : Reachable freed b s' := by
  cases m with
  | alarm =>
    rw [move] at hm
    split at hm
    · next a harmed =>
      split at hm
      · next hrun =>
        cases hok : a.run s with
        | error e =>
          rw [hok] at hm
          cases hm
        | ok t =>
          rw [hok] at hm
          cases hm
          exact hs.step (.alarm hrun harmed hok)
      · cases hm
    · cases hm
  | chunk bytes =>
    rw [move] at hm
    split at hm
    · next hread =>
      obtain ⟨hwait, hptr, hlen⟩ := hread
      split at hm
      · next h l hloop =>
        cases hm
        have hrun := running_of_waits hwait
        have hread := hs.step (.read bytes hptr hwait hlen)
        have hreach := (reach_of_whileLoop hloop).1
        -- each turn of the loop over the chunk is a step of the run
        refine hreach.invariant (I := fun u => Reachable freed b { s with hw := u.1, ptr := u.2 })
          hread fun t u ht hmore hstep => ?_
        have hptr' : t.2 ≠ [] := by
          intro hnil
          rw [recvMore, hnil] at hmore
          cases hmore
        exact ht.step (.recv hrun hptr' hstep)
      · cases hm
    · cases hm
  | proceed =>
    rw [move] at hm
    split at hm
    · next hgo =>
      cases hok : s.proceed b with
      | error e =>
        rw [hok] at hm
        cases hm
      | ok t =>
        rw [hok] at hm
        cases hm
        exact hs.step (.proceed hgo.1 hgo.2.1 hgo.2.2 hok)
    · cases hm

theorem moves_reachable {fuel : Nat} {ms : List Move} (hs : Reachable freed b s)
    (hm : ms.foldlM (move freed b fuel) s = some s') : Reachable freed b s' := by
  induction ms generalizing s with
  | nil =>
    cases hm
    exact hs
  | cons m ms ih =>
    rw [List.foldlM_cons] at hm
    obtain ⟨t, ht, hm⟩ := Option.bind_eq_some_iff.mp hm
    exact ih (move_reachable hs ht) hm

/-- What a run of moves leads to is reachable. -/
theorem follow_reachable {fuel : Nat} {ms : List Move} (hf : follow freed b fuel ms = some s) :
    Reachable freed b s := by
  unfold follow at hf
  obtain ⟨s₀, h₀, hm⟩ := Option.bind_eq_some_iff.mp hf
  refine moves_reachable ?_ hm
  cases hok : start with
  | error e =>
    rw [hok] at h₀
    cases h₀
  | ok t =>
    rw [hok] at h₀
    cases h₀
    exact .start hok

end Attach

/-! ## The automaton -/

/-- A reliable packet was written. -/
def Event.isCommand : Event → Bool
  | .wrote w => (numberOf w).isSome
  | _ => false

/-- The log up to where the link is: before a frame that answers the first pattern (`sync`), before
one that answers the second (`config`), or behind both (`init`), where commands are. -/
inductive Greeted : LinkState → List Event → Prop
  | start : Greeted .sync []
  | other {l : LinkState} {log : List Event} {e : Event} (h : Greeted l log)
      (he : e.isCommand = false) : Greeted l (log ++ [e])
  | synced {log : List Event} {f : List UInt8} (h : Greeted .sync log)
      (hf : Answers h5syncresp f) : Greeted .config (log ++ [.frame f])
  | configured {log : List Event} {f : List UInt8} (h : Greeted .config log)
      (hf : Answers h5confresp f) : Greeted .init (log ++ [.frame f])
  | command {log : List Event} (e : Event) (h : Greeted .init log) : Greeted .init (log ++ [e])

/-- The state of the automaton. -/
def LinkState.greeting : LinkState → LinkState
  | .sync => .sync
  | .config => .config
  | .init | .patch | .active => .init

theorem greeting_of_up {h : Hw} (hup : h.Up) : h.linkEstabState.greeting = .init := by
  unfold Hw.Up at hup
  cases hl : h.linkEstabState with
  | sync =>
    rw [hl] at hup
    exact absurd hup (by decide)
  | config =>
    rw [hl] at hup
    exact absurd hup (by decide)
  | _ => rfl

namespace Greeted
variable {l : LinkState} {log : List Event}

theorem others (h : Greeted l log) : ∀ es : List Event, (∀ e ∈ es, e.isCommand = false) →
    Greeted l (log ++ es) := by
  intro es
  induction es generalizing log with
  | nil =>
    intro _
    rwa [List.append_nil]
  | cons e es ih =>
    intro hes
    rw [List.append_cons]
    exact ih (h.other (hes e List.mem_cons_self)) fun e' he' => hes e' (List.mem_cons_of_mem _ he')

/-- Replies are no commands. -/
theorem replies (h : Greeted l log) {ws : List (List UInt8)} (hws : ∀ w ∈ ws, Reply w) :
    Greeted l (log ++ ws.map .wrote) := by
  refine h.others _ ?_
  intro e he
  obtain ⟨w, hw, rfl⟩ := List.mem_map.mp he
  rw [Event.isCommand, (hws w hw).number]
  rfl

/-- Behind both answers everything may come. -/
theorem commands (h : Greeted .init log) (es : List Event) : Greeted .init (log ++ es) := by
  induction es generalizing log with
  | nil => rwa [List.append_nil]
  | cons e es ih =>
    rw [List.append_cons]
    exact ih (h.command e)

/-- A frame moves the automaton as it moves the link. -/
theorem framed {h h' : Hw} {skb : SkBuff} (hg : Greeted h.linkEstabState.greeting h.log)
    (hlen : skb.data.length = 4 + skb.payloadLen) (hf : Framed h skb h') :
    Greeted h'.linkEstabState.greeting h'.log := by
  obtain ⟨ws, hlog, hws⟩ := hf.log
  rw [hlog, List.append_cons]
  refine replies ?_ hws
  have hstay : ∀ l l', l' = l → Greeted (LinkState.greeting l) h.log →
      Greeted l'.greeting (h.log ++ [.frame skb.data]) := by
    rintro l l' rfl hl
    exact hl.other rfl
  rcases hf.link with heq | ⟨s, hs, hto⟩
  · exact hstay _ _ heq hg
  · generalize h.linkEstabState = l at hto hg
    generalize h'.linkEstabState = l' at hto
    cases hto with
    | stays => exact hg.other rfl
    | synced hstarts => exact .synced hg (answers_of_starts hlen hs (by decide) hstarts)
    | configured hstarts => exact .configured hg (answers_of_starts hlen hs (by decide) hstarts)
    | changed => exact hg.other rfl
    | acknowledged => exact hg.other rfl

/-- Where the first pattern has been answered there is the frame that did it. -/
theorem synced_frame (h : Greeted l log) (hl : l = .config) : ∃ l₀ f l₁,
    log = l₀ ++ .frame f :: l₁ ∧ Answers h5syncresp f := by
  induction h with
  | start => cases hl
  | @other l log e h he ih =>
    obtain ⟨l₀, f, l₁, rfl, hf⟩ := ih hl
    exact ⟨l₀, f, l₁ ++ [e], by rw [List.append_assoc, List.cons_append], hf⟩
  | @synced log f h hf ih => exact ⟨log, f, [], rfl, hf⟩
  | configured h hf ih => cases hl
  | command e h ih => cases hl

/-- Where both have been, there are two. -/
theorem linked_frames (h : Greeted l log) (hl : l = .init) : ∃ l₀ f₁ l₁ f₂ l₂,
    log = l₀ ++ .frame f₁ :: (l₁ ++ .frame f₂ :: l₂) ∧ Answers h5syncresp f₁ ∧
      Answers h5confresp f₂ := by
  have hsnoc : ∀ (log : List Event) (e : Event), (∃ l₀ f₁ l₁ f₂ l₂,
      log = l₀ ++ .frame f₁ :: (l₁ ++ .frame f₂ :: l₂) ∧ Answers h5syncresp f₁ ∧
        Answers h5confresp f₂) → ∃ l₀ f₁ l₁ f₂ l₂,
      log ++ [e] = l₀ ++ .frame f₁ :: (l₁ ++ .frame f₂ :: l₂) ∧ Answers h5syncresp f₁ ∧
        Answers h5confresp f₂ := by
    rintro log e ⟨l₀, f₁, l₁, f₂, l₂, rfl, h₁, h₂⟩
    refine ⟨l₀, f₁, l₁, f₂, l₂ ++ [e], ?_, h₁, h₂⟩
    simp only [List.append_assoc, List.cons_append]
  induction h with
  | start => cases hl
  | @other l log e h he ih => exact hsnoc log e (ih hl)
  | synced h hf ih => cases hl
  | @configured log f h hf ih =>
    obtain ⟨l₀, f₁, l₁, rfl, h₁⟩ := h.synced_frame rfl
    refine ⟨l₀, f₁, l₁, f, [], ?_, h₁, hf⟩
    simp only [List.append_assoc, List.cons_append]
  | @command log e h ih => exact hsnoc log e (ih rfl)

/-- What stands in front of a command. -/
theorem before_command (h : Greeted l log) : ∀ pre e post, log = pre ++ e :: post →
    e.isCommand = true → ∃ l₀ f₁ l₁ f₂ l₂, pre = l₀ ++ .frame f₁ :: (l₁ ++ .frame f₂ :: l₂) ∧
      Answers h5syncresp f₁ ∧ Answers h5confresp f₂ := by
  -- the last event of the log is the command, or it stands behind it
  have hlast : ∀ (log : List Event) (e' : Event) pre e post, log ++ [e'] = pre ++ e :: post →
      (post = [] ∧ pre = log ∧ e = e') ∨ ∃ post', log = pre ++ e :: post' := by
    intro log e' pre e post heq
    rcases List.eq_nil_or_concat post with rfl | ⟨post', e'', rfl⟩
    · obtain ⟨h₁, h₂⟩ := List.append_inj' heq rfl
      cases h₂
      exact .inl ⟨rfl, h₁.symm, rfl⟩
    · rw [List.concat_eq_append, ← List.cons_append, ← List.append_assoc] at heq
      exact .inr ⟨post', (List.append_inj' heq rfl).1⟩
  induction h with
  | start =>
    intro pre e post heq
    exact absurd heq.symm (List.append_ne_nil_of_right_ne_nil pre (List.cons_ne_nil e post))
  | other h he ih =>
    intro pre e post heq hcmd
    rcases hlast _ _ pre e post heq with ⟨-, -, rfl⟩ | ⟨post', heq'⟩
    · rw [he] at hcmd
      cases hcmd
    · exact ih pre e post' heq' hcmd
  | synced h hf ih =>
    intro pre e post heq hcmd
    rcases hlast _ _ pre e post heq with ⟨-, -, rfl⟩ | ⟨post', heq'⟩
    · cases hcmd
    · exact ih pre e post' heq' hcmd
  | configured h hf ih =>
    intro pre e post heq hcmd
    rcases hlast _ _ pre e post heq with ⟨-, -, rfl⟩ | ⟨post', heq'⟩
    · cases hcmd
    · exact ih pre e post' heq' hcmd
  | command e' h ih =>
    intro pre e post heq hcmd
    rcases hlast _ _ pre e post heq with ⟨-, rfl, -⟩ | ⟨post', heq'⟩
    · exact h.linked_frames rfl
    · exact ih pre e post' heq' hcmd

end Greeted

/-! ## The run -/

/-- The automaton is where the link is, and a command is kept only behind both answers. -/
structure Greets (h : Hw) : Prop where
  log : Greeted h.linkEstabState.greeting h.log
  last : h.hostLastCmd.isSome = true → h.Up

section Run
variable {freed : Hw → List UInt8 → UInt8} {a : Option Alarm} {h h' : Hw}

/-- Behind both answers anything may be written. -/
theorem Greets.writes (hg : Greets h) (hup : h.Up) (hup' : h'.Up) {es : List Event}
    (hlog : h'.log = h.log ++ es) : Greets h' := by
  refine ⟨?_, fun _ => hup'⟩
  have hlog' := hg.log
  rw [greeting_of_up hup] at hlog'
  rw [greeting_of_up hup', hlog]
  exact hlog'.commands es

/-- A packet without a number may be written at any time. -/
theorem Greets.plain (hg : Greets h) (hlink : h'.linkEstabState = h.linkEstabState)
    (hlast : h'.hostLastCmd = h.hostLastCmd) {w : List UInt8} (hw : numberOf w = none)
    (hlog : h'.log = h.log ++ [.wrote w]) : Greets h' := by
  refine ⟨?_, fun hl => ?_⟩
  · rw [hlog, hlink]
    refine hg.log.other ?_
    rw [Event.isCommand, hw]
    rfl
  · unfold Hw.Up
    rw [hlink]
    exact hg.last (hlast ▸ hl)

theorem Act.greets (hact : Act freed a h h') (hcrc : h.useCrc = false) (hR : Receiving h)
    (hg : Greets h) : Greets h' := by
  cases hact with
  | ack hok =>
    rw [rtkSendPureAckDown_wrote hok]
    exact hg.plain rfl rfl (reply_ack h hcrc).number rfl
  | command cmd hup hlen hok =>
    obtain ⟨rel, nskb, -, rfl, -⟩ := writePacket_ok hok
    exact hg.writes hup hup rfl
  | patch index len data hup hok =>
    obtain ⟨nskb, rfl, -⟩ := hciDownloadPatch_ok hok
    exact hg.writes hup hup (List.append_assoc _ _ _)
  | recv hok =>
    rcases recvStep_frame hok with hk | ⟨skb, hc, hdone⟩
    -- no frame is completed: what is logged is a number out of order
    · obtain ⟨ns, hlog⟩ := hk.log
      refine ⟨?_, fun hl => ?_⟩
      · rw [hlog, hk.link]
        refine hg.log.others _ fun e he => ?_
        obtain ⟨n, -, rfl⟩ := List.mem_map.mp he
        rfl
      · unfold Hw.Up
        rw [hk.link]
        exact hg.last (hk.last ▸ hl)
    · have hf := h5CompleteRxPkt_framed hcrc hdone
      refine ⟨hg.log.framed (hc.exact hR) hf, fun hl => ?_⟩
      rcases hf.last with hsame | hnone
      · exact (hg.last (hsame ▸ hl)).trans hf.rank
      · rw [hnone] at hl
        cases hl
  | commands rom hci => exact ⟨hg.log, hg.last⟩
  | patchLink d hup => exact hg.writes hup (Nat.le_succ 2) (List.append_nil _).symm
  | pattern hp hok =>
    obtain ⟨rel, nskb, hrel, rfl, hline⟩ := writePacket_ok hok
    cases hrel
    refine hg.plain rfl rfl ?_ rfl
    rw [hline, numberOf_line h hcrc]
    rfl
  | again ha =>
    unfold Hw.writeAgain
    split
    · next nskb hlast =>
      have hup : h.Up := hg.last (by rw [hlast]; rfl)
      exact hg.writes hup hup rfl
    · exact hg

end Run

/-- The first pattern is all there is at the start. -/
theorem greets_start {h : Hw} (hok : writePacket rtkInit h5sync H5_LINK_CTL_PKT false = .ok h) :
    Greets h := by
  have hinit : Greets rtkInit := ⟨.start, fun hl => nomatch hl⟩
  have hact : Act (fun _ _ => 0) (some .tsync) rtkInit h := .pattern rfl hok
  exact hact.greets rfl receiving_init hinit

namespace Attach
variable {freed : Hw → List UInt8 → UInt8} {b : Board} {s : Attach}

/-- **The link over every run** is where the frames completed have taken it. -/
theorem Reachable.greets (hs : Reachable freed b s) : Greets s.hw := by
  induction hs with
  | start hok =>
    obtain ⟨-, -, ⟨h, hw, hs⟩, -⟩ := start_ok hok
    rw [hs]
    exact greets_start hw
  | step hr hstep ih =>
    have hsound := hr.sound
    have hkept := hstep.keeps (P := fun h => h.useCrc = false ∧ Receiving h ∧ Greets h)
      (fun a h h' hact hh => ⟨hact.crc hh.1, hact.receiving hh.2.1, hact.greets hh.1 hh.2.1 hh.2.2⟩)
      hsound ⟨hsound.crc, hsound.receiving, ih⟩
    exact hkept.2.2

end Attach

/-- **No command before the link.** Whatever is read in whatever chunks, and whenever the timers
end: in front of every command the program has written, or written again, there is a frame with the
answer to the first pattern, and behind it one with the answer to the second. -/
theorem attach_greets_first (freed : Hw → List UInt8 → UInt8) {b : Board} {s : Attach}
    (hs : s.Reachable freed b) (pre post : List Event) (w : List UInt8)
    (hlog : s.hw.log = pre ++ .wrote w :: post) (hw : (numberOf w).isSome = true) :
    ∃ l₀ f₁ l₁ f₂ l₂, pre = l₀ ++ .frame f₁ :: (l₁ ++ .frame f₂ :: l₂) ∧
      Answers h5syncresp f₁ ∧ Answers h5confresp f₂ :=
  hs.greets.log.before_command pre _ post hlog hw

/-- A board without a config file, and with an image of one byte. -/
def bareBoard : Board := ⟨none, some [0x51], 115200, true, true⟩

/-- Both patterns are answered, the second once it was written again. -/
def greetMoves : List Attach.Move :=
  [.chunk [0xc0, 0x00, 0x2f, 0x00, 0xd0, 0x02, 0x7d, 0xc0], .proceed, .alarm,
    .chunk [0xc0, 0x00, 0x2f, 0x00, 0xd0, 0x04, 0x7b, 0xc0], .proceed]

/-- The question for the first version, behind the two answers. -/
theorem attach_greets_first_lmp : ∃ (s : Attach) (pre : List Event),
    s.Reachable (fun _ _ => 0) bareBoard ∧
    s.hw.log = pre ++ [.wrote [0xc0, 0x80, 0x31, 0x00, 0x4e, 0x01, 0x10, 0x00, 0xc0]] ∧
    ∃ l₀ f₁ l₁ f₂ l₂, pre = l₀ ++ .frame f₁ :: (l₁ ++ .frame f₂ :: l₂) ∧
      Answers h5syncresp f₁ ∧ Answers h5confresp f₂ := by
  have hlog : (Attach.follow (fun _ _ => 0) bareBoard 20 greetMoves).map (·.hw.log) = some ([
      .wrote [0xc0, 0x00, 0x2f, 0x00, 0xd0, 0x01, 0x7e, 0xc0],
      .frame [0x00, 0x2f, 0x00, 0xd0, 0x02, 0x7d],
      .wrote [0xc0, 0x00, 0x3f, 0x00, 0xdb, 0xdc, 0x03, 0xfc, 0x14, 0xc0],
      .wrote [0xc0, 0x00, 0x3f, 0x00, 0xdb, 0xdc, 0x03, 0xfc, 0x14, 0xc0],
      .frame [0x00, 0x2f, 0x00, 0xd0, 0x04, 0x7b],
      .wrote [0xc0, 0x00, 0x00, 0x00, 0xff, 0xc0]] ++
      [.wrote [0xc0, 0x80, 0x31, 0x00, 0x4e, 0x01, 0x10, 0x00, 0xc0]]) := by
    decide +kernel
  obtain ⟨s, hs, hlog⟩ := Option.map_eq_some_iff.mp hlog
  have hr := Attach.follow_reachable hs
  exact ⟨s, _, hr, hlog, attach_greets_first _ hr _ [] _ hlog (by decide)⟩

end Lichee.Bluetooth

import InstantOS.Net.TcpSendSteps

/-!
# Opening, inbound segments and timeouts

The events that come from outside keep the invariant of the send side: the handshake from both
sides and the simultaneous open, every inbound segment, and the timers.
-/

namespace InstantOS.Tcp

open Base Sending

variable {isn : Seq} {cells : List Cell} {u n m : Nat} {s : Socket}

/-! ## Opening -/

/-- Right after `tcpInitConnection`. -/
theorem Sending.init (hqueue : s.snd.queue = []) (closed : Prop) :
    Sending isn [] 0 0 0 closed (tcpInitConnection isn s).snd := by
  have horigin : isn = seqOf (isn.toNat + 0) := (seqOf_toNat isn).symm
  have hnothing : Queued isn [] 0 0 0 s.snd.queue := by
    rw [hqueue]
    exact ⟨⟨[], [], rfl, rfl, rfl⟩, le_rfl, by simp, rfl, .nil⟩
  exact
    { sendSeq := horigin, unacked := horigin, next := horigin, highest := horigin
      unacked_le := le_rfl, next_le := le_rfl, highest_le := le_rfl, room := Nat.zero_le _
      rto := Nat.zero_lt_succ _, mss := Nat.zero_lt_succ _, backlog := fun _ => ⟨0, hnothing⟩
      gone := fun _ => hqueue, finAcked := nofun
      finQueued := fun seg (hseg : seg ∈ s.snd.queue) => by simp [hqueue] at hseg }

/-- The SYN or SYN-ACK joins the empty queue and goes out. -/
theorem Live.queueSyn (h : Live isn [] 0 0 0 s) (hqueue : s.snd.queue = [])
    (hopening : s.state.opening) (hfin : s.snd.finSent = false)
    (hacked : s.snd.finAcked = false) (hin : s.snd.inRecovery = false) (flags : Flags)
    (hsyn : flags.syn) (hflag : flags.fin = false) (now : Nat) (allocated : Bool) :
    Steady isn (if allocated then [.control] else [])
      (tcpQueueSegment now flags [] allocated s).2 := by
  cases allocated with
  | false =>
    refine ⟨0, 0, 0, ⟨h, ⟨?_, fun _ => ⟨rfl, hin⟩, ?_, ?_⟩⟩, fun _ hne => absurd hqueue hne⟩
    · change _ → ∀ seg ∈ s.snd.queue, _
      simp [hqueue]
    · change s.snd.finSent → _
      simp [hfin]
    · change s.snd.inRecovery → _
      simp [hin]
  | true =>
    have hopen := TcpState.not_closed (.inr hopening)
    have hcells : segCells { seq := s.snd.sendSeq, flags := flags, data := [] } = [.control] := by
      simp [segCells, hsyn]
    have hspan : tcpSegmentSpan { seq := s.snd.sendSeq, flags := flags, data := [] } = 1 := by
      simp [tcpSegmentSpan, hsyn]
    have hlive := h.enqueue hopen { seq := s.snd.sendSeq, flags := flags, data := [] } rfl
      (by rw [hspan]; decide)
      (by rw [hspan]; simp only [kTcpSendBufferCap, List.length_nil]; omega)
      (by rw [hspan]; decide) (by simp [hqueue]) hacked (by simp [hflag])
    rw [hcells, List.nil_append] at hlive
    obtain ⟨n', m', hout⟩ := hlive.output now (by
      intro _ seg hseg
      simp only [setSnd_snd, hqueue, List.nil_append, List.mem_singleton] at hseg
      rw [hseg]
      exact hsyn)
    obtain ⟨hdeadline, hpositive⟩ := hout.opened hopening rfl (by simp)
    have hle := hout.live.sending.highest_le
    rw [List.length_singleton] at hle
    refine ⟨0, n', m', ⟨hout.live, ⟨?_, ?_, ?_, ?_⟩⟩, fun _ _ => hdeadline⟩
    · intro _ seg' hseg'
      obtain ⟨seg, hseg, hflags⟩ := hout.resent.flags hseg'
      simp only [setSnd_snd, hqueue, List.nil_append, List.mem_singleton] at hseg
      rw [hflags, hseg]
      exact hsyn
    · intro _
      refine ⟨?_, hout.inRecovery.trans hin⟩
      simp only [if_true, List.length_singleton]
      omega
    · intro hsent
      have := hout.finSent.symm.trans hsent
      change s.snd.finSent = true at this
      rw [hfin] at this
      cases this
    · intro hrecovering
      have := hout.inRecovery.symm.trans hrecovering
      change s.snd.inRecovery = true at this
      rw [hin] at this
      cases this

/-- The MSS is never zero, and the queue does not depend on it. -/
theorem Sending.establish {closed : Prop} (h : Sending isn cells u n m closed s.snd)
    (peer : TcpOptions) : Sending isn cells u n m closed (tcpEstablish peer s).snd := by
  have hfloor : ∀ x, 0 < if x < 64 then 64 else x := by
    intro x
    split <;> omega
  exact { h with mss := hfloor _ }

theorem steady_passiveOpen (now : Nat) (isn : Seq) (allocated : Bool) (seg : TcpSegmentInfo) :
    Steady isn (if allocated then [.control] else []) (passiveOpen now isn allocated seg) := by
  have hinit : ∀ closed, Sending isn [] 0 0 0 closed (tcpInitConnection isn {}).snd := .init rfl
  unfold passiveOpen
  refine Live.queueSyn ⟨?_, ?_⟩ rfl rfl rfl rfl rfl kTcpSynAck rfl rfl now allocated
  · refine .establish ?_ seg.options
    exact { hinit _ with }
  · exact nofun

/-- `sys_connect` to another host, on a socket whose queue is empty. -/
theorem steady_connect (now : Nat) (mayWait : Bool) (isn : Seq) (allocated : Bool)
    (hqueue : s.snd.queue = []) (hwire : s.wire = []) (herror : s.error = 0)
    (hstate : ¬ (s.state = .established ∨ s.state.opening)) :
    Steady isn (if allocated then [.control] else [])
      (sysConnect now mayWait (.remote isn allocated) s).2 := by
  obtain ⟨hest, hopening⟩ := not_or.1 hstate
  rw [TcpState.opening_iff] at hopening
  have hlive : Live isn [] 0 0 0 { tcpInitConnection isn s with
      ann := { (tcpInitConnection isn s).ann with offeredScale := true }
      state := .synSent, connected := false } :=
    ⟨.init hqueue _, by intro x hx; change x ∈ s.wire at hx; rw [hwire] at hx; cases hx⟩
  have hsteady := hlive.queueSyn hqueue rfl rfl rfl rfl kTcpSyn rfl rfl now allocated
  unfold sysConnect
  rw [if_neg (not_not.2 herror), if_neg hest, if_neg hopening]
  cases allocated with
  | true => exact hsteady
  | false =>
    obtain ⟨u, n, m, hsound, -⟩ := hsteady
    refine ⟨u, n, m, hsound.over rfl ?_ rfl rfl rfl hsound.wire⟩
    simp [tcpQueueSegment, tcpInitConnection, hqueue]

/-! ## Segments -/

section

variable (h : Sound isn cells u n m s)

include h

theorem Sound.refuse (seg : TcpSegmentInfo) :
    Sound isn cells u n m (tcpRefuseSegment seg s) ∧ (tcpRefuseSegment seg s).snd = s.snd ∧
      (tcpRefuseSegment seg s).state = s.state := by
  have hnet : ∀ seq ack flags, Wired isn cells u (netTransmit seq ack flags 0 [] s) := by
    intro seq ack flags x hx
    rcases List.mem_append.1 hx with hx | hx
    · exact h.wire x hx
    · rw [List.mem_singleton.1 hx]
      exact ⟨fun hdata => absurd rfl hdata, fun hdata => absurd rfl hdata⟩
  unfold tcpRefuseSegment
  split
  · exact ⟨h, rfl, rfl⟩
  split
  · exact ⟨h.sends rfl rfl (hnet _ _ _), rfl, rfl⟩
  · exact ⟨h.sends rfl rfl (hnet _ _ _), rfl, rfl⟩

/-- Our SYN is acknowledged: the queue is empty. -/
theorem Sound.synAcked (hsilent : Silent s) (hstate : s.state = .synSent) {s' : Socket}
    (hopen : s'.state = .established) (hsending : Sending isn cells m (max n m) m False s'.snd)
    (hfin : s'.snd.finSent = s.snd.finSent) (hin : s'.snd.inRecovery = s.snd.inRecovery)
    (hwire : s'.wire = s.wire) : Steady isn cells (tcpSendControl kTcpAck s') := by
  obtain ⟨hall, hcalm⟩ := h.fit.synSent hstate
  have hempty : s'.snd.queue = [] := by
    obtain ⟨k, hk⟩ := hsending.backlog not_false
    exact (hk.nil_iff le_rfl le_rfl).2 hall
  have hsound : Sound isn cells m (max n m) m s' := by
    refine ⟨⟨(open_iff (by simp [hopen])).2 hsending, Silent.wired ?_⟩, ⟨?_, ?_, ?_, ?_⟩⟩
    · unfold Silent
      rw [hwire]
      exact hsilent
    · simp [hempty]
    · simp [hopen]
    · intro hsent
      have := (h.fit.finSent (hfin.symm.trans hsent)).2.2
      rw [hstate] at this
      cases this
    · simp [hin, hcalm]
  exact ⟨m, max n m, m, hsound.control kTcpAck, fun _ hne => absurd hempty hne⟩

theorem Sound.noFin (hopening : s.state.opening) : s.snd.finSent = false := by
  by_contra hsent
  have := (h.fit.finSent (Bool.not_eq_false _ ▸ hsent)).2.2
  rw [hopening] at this
  cases this

/-- The peer's SYN crosses ours. -/
theorem Sound.crossed (harmed : Armed s) (hstate : s.state = .synSent) (peer : TcpOptions)
    (window : Nat) (rcv : Receiver) :
    Sound isn cells u n m { tcpEstablish peer { s with
      snd := { s.snd with peerWindow := window }, rcv } with state := .synReceived } ∧
    Armed { tcpEstablish peer { s with
      snd := { s.snd with peerWindow := window }, rcv } with state := .synReceived } := by
  have hopening : s.state.opening := by rw [hstate]; rfl
  have hsending := (open_iff (by simp [hstate])).1 h.sending
  have hwindow : Sending isn cells u n m False
      { s with snd := { s.snd with peerWindow := window }, rcv }.snd := { hsending with }
  refine ⟨⟨⟨(open_iff nofun).2 (hwindow.establish peer), h.wire⟩,
    ⟨fun _ => h.fit.syn hopening, nofun, fun hsent => ?_, h.fit.recovering⟩⟩, fun _ => ?_⟩
  · cases (h.noFin hopening).symm.trans hsent
  · exact harmed (by rw [hstate]; rfl)

/-- The SYN becomes a SYN-ACK and is to be sent again. -/
theorem Sound.answerSyn (hstate : s.state = .synReceived)
    {head : TcpSendSegment} {rest : List TcpSendSegment} (hqueue : s.snd.queue = head :: rest) :
    Sound isn cells u u m (s.setSnd { s.snd with
      queue := { head with flags := kTcpSynAck } :: rest
      sendNext := s.snd.sendUnacked }) := by
  obtain ⟨hunacked, hnext, -⟩ := h.sending.order
  have hopening : s.state.opening := by rw [hstate]; rfl
  have hsyn : head.flags.syn := h.fit.syn hopening head (by simp [hqueue])
  obtain ⟨hflags, hunacked'⟩ := h.sending.noFin (h.noFin hopening)
  have hflag : head.flags.fin = false := hflags head (by simp [hqueue])
  have hkey : ({ head with flags := kTcpSynAck } :: rest).map TcpSendSegment.key =
      s.snd.queue.map TcpSendSegment.key := by
    rw [hqueue]
    simp [TcpSendSegment.key, segCells, hflag, hsyn, kTcpSynAck]
  refine ⟨⟨{ h.sending with
      next := h.sending.unacked, unacked_le := le_rfl, next_le := by omega
      backlog := ?_, gone := ?_, finQueued := ?_, finAcked := ?_ }, h.wire⟩,
    { h.fit with syn := ?_, synSent := ?_ }⟩
  · intro hopen
    obtain ⟨k, hk⟩ := h.sending.backlog hopen
    exact ⟨k, hk.congr hkey⟩
  · intro hclosed
    change s.state = .closed at hclosed
    rw [hstate] at hclosed
    cases hclosed
  · intro seg hseg hfin
    rcases List.mem_cons.1 hseg with rfl | hseg
    · cases hfin
    · exact h.sending.finQueued seg (by simp [hqueue, hseg]) hfin
  · intro hacked
    cases hunacked'.symm.trans hacked
  · intro _ seg hseg
    rcases List.mem_cons.1 hseg with rfl | hseg
    · rfl
    · exact h.fit.syn hopening seg (by simp [hqueue, hseg])
  · intro hsent
    change s.state = .synSent at hsent
    rw [hstate] at hsent
    cases hsent

/-- The answer to our SYN, or a SYN that crossed it. -/
theorem Sound.processSynSent (harmed : Armed s) (hsilent : Silent s)
    (hstate : s.state = .synSent) (now : Nat) (seg : TcpSegmentInfo) :
    Steady isn cells (processSynSent now seg s) := by
  unfold Tcp.processSynSent
  split
  · split
    · obtain ⟨hsound, hsnd, hstate'⟩ := h.refuse seg
      exact ⟨u, n, m, hsound, harmed.congr hstate' hsnd⟩
    rename_i hack
    have hack : seg.ack = seqOf (isn.toNat + m) := by
      rw [← h.sending.highest]
      simpa using hack
    obtain ⟨hunacked, hnext, -⟩ := h.sending.order
    have hacked := (open_iff (by simp [hstate])).1 (h.sending.ack (by omega) le_rfl now)
    rw [← hack] at hacked
    obtain ⟨hin, -, hfin⟩ := ackAndSample_same seg.ack now s.snd
    exact h.synAcked hsilent hstate rfl (.establish { hacked with } _) hfin hin rfl
  · split
    · obtain ⟨hsound, harmed'⟩ := h.crossed harmed hstate seg.options seg.window.toNat
        { s.rcv with recvNext := seg.seq + 1 }
      dsimp only
      split
      · exact ⟨u, n, m, hsound, harmed'⟩
      · rename_i head rest hqueue
        exact (hsound.answerSyn rfl hqueue).output_steady (fun _ _ => .inr rfl) now
    · exact ⟨u, n, m, h, harmed⟩

end

/-- An inbound segment of any kind. -/
theorem Steady.processTcpSegment (h : Steady isn cells s) (hwire : s.wire = []) (now : Nat)
    (memory : List Bool) (seg : TcpSegmentInfo) :
    Steady isn cells (processTcpSegment now memory seg s) := by
  obtain ⟨u, n, m, hsound, harmed⟩ := h
  have hsilent : Silent s := by
    intro x hx
    rw [hwire] at hx
    cases hx
  have hsame : Steady isn cells s := ⟨u, n, m, hsound, harmed⟩
  unfold Tcp.processTcpSegment
  split
  · unfold processReset
    split
    · split
      · exact hsame
      · exact hsound.abort_steady _
    · split
      · exact hsound.abort_steady _
      · exact hsame
  split
  · rename_i hstate
    exact hsound.processSynSent harmed hsilent hstate now seg
  rename_i hsyn
  split
  · split
    · obtain ⟨hsent, hsnd, hresent⟩ := hsound.sendHead now
      refine ⟨u, n, m, hsent, fun htimed hne => ?_⟩
      rw [hsnd]
      refine harmed ?_ fun hnil => hne (hresent.eq_nil.2 hnil)
      rw [← (sendHead_sends now s).state]
      exact htimed
    · exact ⟨u, n, m, hsound.control kTcpAck, harmed⟩
  split
  · exact hsame
  · exact hsound.processAcked harmed hsilent hsyn now memory seg

/-! ## Timers -/

section

variable (h : Sound isn cells u n m s)

include h

/-- The probe of a closed window sends the first segment. -/
theorem Sound.probe (hidle : u = m) {seg : TcpSendSegment}
    {rest : List TcpSendSegment} (hqueue : s.snd.queue = seg :: rest) (now : Nat) :
    Steady isn cells (probe now seg s) := by
  obtain ⟨hsent, -, -⟩ := h.sendHead now
  have hhead : (Tcp.sendHead now s).snd.queue = seg.sent now :: rest := by
    rw [Tcp.sendHead, hqueue]
    rfl
  obtain ⟨hopen, k, hk⟩ := hsent.sending.first hhead
  have hchain := hk.pieces.chain
  have hstart : tcpSegmentEnd seg = seqOf (isn.toNat + (k + tcpSegmentSpan seg)) := hchain.head_end
  have hin := hk.head _ _ rfl
  have hend : k + tcpSegmentSpan seg ≤ cells.length := hchain.head_le
  change u < k + tcpSegmentSpan seg at hin
  have hnumbered : Numbered isn cells u (k + tcpSegmentSpan seg) (k + tcpSegmentSpan seg)
      { (Tcp.sendHead now s).snd with
        sendNext := tcpSegmentEnd seg
        sendMax := tcpSegmentEnd seg
        rtxDeadline := now + tcpCurrentRto (Tcp.sendHead now s).snd } :=
    ⟨hsent.sending.sendSeq, hsent.sending.unacked, hstart, hstart, by omega, le_rfl, hend,
      hsent.sending.room, hsent.sending.rto, hsent.sending.mss⟩
  have hnone : Covers isn k [] k := rfl
  rw [← hhead] at hk hchain
  have hmoved := ((open_iff hopen).1 hsent.sending).moved hk (by rfl) hnumbered (.refl _)
    (by rw [hhead] at hchain ⊢; exact Chain.split hnone hchain)
  refine ⟨u, _, _, ⟨⟨(open_iff hopen).2 hmoved, hsent.wire⟩, ?_⟩, fun _ _ => ?_⟩
  · exact hsent.fit.resent (.refl _) (by omega) hend rfl rfl rfl
  · exact deadline_ne_zero now hsent.sending.rto

/-- A timeout goes back to the first segment. -/
theorem Sound.goBack (now : Nat) : Steady isn cells (goBack now s) := by
  obtain ⟨hunacked, hnext, -⟩ := h.sending.order
  have hsound : Sound isn cells u u m (s.setSnd { s.snd with
      ssthresh := lossThreshold s.snd
      cwnd := s.snd.sendMss
      inRecovery := false
      dupAckCount := 0
      sendNext := s.snd.sendUnacked }) := by
    exact ⟨⟨{ h.sending with
        next := h.sending.unacked, unacked_le := le_rfl, next_le := by omega }, h.wire⟩,
      { h.fit with synSent := fun hsyn => ⟨(h.fit.synSent hsyn).1, rfl⟩, recovering := nofun }⟩
  exact hsound.output_steady (fun _ _ => .inr rfl) now

theorem Sound.retransmit (now : Nat) : Steady isn cells (retransmit now s) := by
  obtain ⟨hunacked, hnext, hhighest⟩ := h.sending.order
  have hroom := h.sending.room_lt
  have hstopped : Sound isn cells u n m (s.setSnd { s.snd with rtxDeadline := 0 }) :=
    h.congr rfl h.sending.rto rfl rfl
  have hbacked : Sound isn cells u n m ((s.setSnd { s.snd with rtxDeadline := 0 }).setSnd
      { s.snd with rtxDeadline := 0, backoff := s.snd.backoff + 1 }) :=
    hstopped.congr rfl h.sending.rto rfl rfl
  unfold Tcp.retransmit
  dsimp only
  split
  · rename_i hqueue
    exact ⟨u, n, m, hstopped, fun _ hne => absurd hqueue hne⟩
  rename_i seg rest hqueue
  split
  · exact hstopped.abort_steady _
  split
  · rename_i hidle
    change s.snd.sendUnacked = s.snd.sendMax at hidle
    rw [h.sending.unacked, h.sending.highest, seqOf_inj (by omega) (by omega)] at hidle
    exact hbacked.probe (by omega) hqueue now
  · exact hbacked.goBack now

end

theorem Steady.tcpTimers (h : Steady isn cells s) (now : Nat) :
    Steady isn cells (tcpTimers now s) := by
  have hdue : Steady isn cells (acknowledgeIfDue now s) := by
    obtain ⟨u, n, m, hsound, harmed⟩ := h
    unfold acknowledgeIfDue
    split
    · exact ⟨u, n, m, hsound.control kTcpAck, harmed⟩
    · exact ⟨u, n, m, hsound, harmed⟩
  unfold Tcp.tcpTimers
  dsimp only
  generalize acknowledgeIfDue now s = s' at hdue
  obtain ⟨u, n, m, hsound, harmed⟩ := hdue
  split
  · split
    · exact ⟨u, n, m, hsound.over rfl rfl rfl rfl rfl hsound.wire⟩
    · exact ⟨u, n, m, hsound, harmed⟩
  split
  · exact ⟨u, n, m, hsound, harmed⟩
  · exact hsound.retransmit now

end InstantOS.Tcp

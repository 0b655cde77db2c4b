import InstantOS.Net.TcpHarmless
import InstantOS.Net.TcpSendRun
import InstantOS.Net.TcpStream

/-!
# Segments from off the path

A segment from off the path leaves the connection alone exactly if it is `Harmless`.  For one
direction each part of `processTcpSegment` only answers it; for the other, whatever one part
changes (`SND.UNA`, a window, the state, the number of transmissions, the wire) the parts after it
do not change back.
-/

namespace InstantOS.Tcp

open Base TcpState List

/-! ## What does not come back -/

/-- How far a connection has come. -/
def TcpState.stage : TcpState → Nat
  | .listen | .synSent | .synReceived | .established => 0
  | .closeWait | .finWait1 => 1
  | .finWait2 | .closing | .lastAck => 2
  | .timeWait => 3
  | .closed => 4

theorem TcpState.closed_of_stage {state : TcpState} (h : closed.stage ≤ state.stage) :
    state = .closed := by
  cases state <;> first | rfl | exact absurd h (by decide)

/-- What the parts of `processTcpSegment` after the acknowledgement do not undo. -/
structure Later (s s' : Socket) : Prop where
  sendUnacked : s'.snd.sendUnacked = s.snd.sendUnacked
  peerWindow : s'.snd.peerWindow = s.snd.peerWindow
  cwnd : s'.snd.cwnd = s.snd.cwnd
  wire : s.wire <+: s'.wire
  stage : s.state.stage ≤ s'.state.stage
  sent : s'.state = .closed ∨ timesSent s.snd.queue ≤ timesSent s'.snd.queue

namespace Later

variable {s s' s'' : Socket}

theorem refl (s : Socket) : Later s s := ⟨rfl, rfl, rfl, prefix_refl _, le_rfl, .inr le_rfl⟩

theorem trans (h : Later s s') (h' : Later s' s'') : Later s s'' := by
  refine ⟨h'.sendUnacked.trans h.sendUnacked, h'.peerWindow.trans h.peerWindow,
    h'.cwnd.trans h.cwnd, h.wire.trans h'.wire, h.stage.trans h'.stage, ?_⟩
  rcases h.sent with hclosed | hsent
  · have hstage := h'.stage
    rw [hclosed] at hstage
    exact .inl (closed_of_stage hstage)
  · rcases h'.sent with hclosed | hsent'
    · exact .inl hclosed
    · exact .inr (hsent.trans hsent')

/-- The send side is the same. -/
theorem of_snd (hsnd : s'.snd = s.snd) (hwire : s.wire <+: s'.wire)
    (hstage : s.state.stage ≤ s'.state.stage) : Later s s' :=
  ⟨by rw [hsnd], by rw [hsnd], by rw [hsnd], hwire, hstage, .inr (by rw [hsnd])⟩

end Later

section

variable (now : Nat) (memory : List Bool) (seg : TcpSegmentInfo) (s : Socket)

theorem later_transmit (seq : Seq) (flags : Flags) (data : List UInt8) (again : Bool) :
    Later s (tcpTransmit seq flags data again s) :=
  .of_snd rfl (prefix_append _ _) le_rfl

theorem later_abort (error : Nat) : Later s (tcpAbort error s) := by
  refine ⟨rfl, rfl, rfl, prefix_refl _, ?_, .inl rfl⟩
  change s.state.stage ≤ 4
  cases s.state <;> decide

theorem later_advanceClose : Later s (advanceClose now s) := by
  unfold advanceClose
  split
  · split
    · rename_i h
      exact .of_snd rfl (prefix_refl _) (by simp [h, stage])
    split
    · rename_i h
      exact .of_snd rfl (prefix_refl _) (by simp [h, stage])
    split
    · rename_i h
      exact ⟨rfl, rfl, rfl, prefix_refl _, by simp [h, stage], .inl rfl⟩
    · exact .refl s
  · exact .refl s

theorem later_receiveData : Later s (tcpReceiveData now memory seg s) := by
  obtain ⟨hreceives, acks, hwire, -⟩ := tcpReceiveData_replies now memory seg s
  exact .of_snd hreceives.snd (hwire ▸ prefix_append _ _) (by rw [hreceives.state])

theorem later_stateAfterFin : Later s (stateAfterFin now s) := by
  obtain ⟨hsnd, -, hwire⟩ := stateAfterFin_same now s
  refine .of_snd hsnd (by rw [hwire]) ?_
  unfold stateAfterFin
  split <;> rename_i h
  · simp [h, stage]
  · simp [h, stage]
  · split <;> simp [h, stage]
  · simp [h, stage]
  · exact le_rfl

theorem later_processFin : Later s (processFin now seg s) := by
  unfold processFin
  dsimp only
  split
  · split
    · refine Later.trans ?_ (later_stateAfterFin now _)
      exact .of_snd rfl (prefix_append _ _) le_rfl
    split
    · exact later_transmit s _ _ _ _
    · exact .refl s
  · exact .refl s

section

variable (hopen : ¬ (s.state = .synSent ∨ s.state = .synReceived))

include hopen

theorem later_output : Later s (tcpOutput now s) := by
  cases hsends : s.state.sends with
  | false =>
    rw [tcpOutput, if_neg hopen, if_neg (by simp [hsends])]
    exact .refl s
  | true =>
    obtain ⟨hmoved, hwire, hsent⟩ := outputLoop_grows now (sendWindow s.snd) (unsent s.snd) s
    have hstate := (tcpOutput_sends now s).state
    rw [tcpOutput_eq now hopen hsends] at hstate ⊢
    refine ⟨?_, ?_, ?_, hwire, by rw [hstate], .inr ?_⟩
    · rw [setSnd_snd, hmoved]
    · rw [setSnd_snd, hmoved]
    · rw [setSnd_snd, hmoved]
    · nth_rewrite 1 [← takeWhile_append_unsent s.snd]
      rw [setSnd_snd, timesSent_append, timesSent_append]
      omega

theorem processFin_open :
    ¬ ((processFin now seg s).state = .synSent ∨ (processFin now seg s).state = .synReceived) := by
  unfold processFin
  dsimp only
  split
  · split
    · rw [← opening_iff, (stateAfterFin_state now _).2.1]
      exact fun hsyn => hopen (.inl (of_decide_eq_true hsyn))
    · split <;> exact hopen
  · exact hopen

theorem later_processContents : Later s (processContents now memory seg s) := by
  unfold processContents
  split
  · split
    · exact (later_transmit s _ _ _ _).trans (later_abort _ _)
    have hreceived := later_receiveData now memory seg s
    have hstate := (tcpReceiveData_replies now memory seg s).receives.state
    exact (hreceived.trans (later_processFin now seg _)).trans
      (later_output now _ (processFin_open now seg _ (by rw [hstate]; exact hopen)))
  · exact (later_processFin now seg s).trans (later_output now _ (processFin_open now seg s hopen))

end

end

/-! ## Data is noticed -/

theorem tcpAppendReceived_received (data : List UInt8) (memory : List Bool) (r : Receiver) :
    r.received.length ≤ (tcpAppendReceived data memory r).2.received.length := by
  unfold tcpAppendReceived
  split
  · exact le_rfl
  dsimp only
  split
  · simp
  · exact le_rfl

theorem drainPass_received (held : List TcpReassemblySegment) (d : Drain) :
    d.rcv.received.length ≤ (drainPass held d).2.rcv.received.length := by
  induction held generalizing d with
  | nil => exact le_rfl
  | cons h rest ih =>
    rw [drainPass]
    split
    · exact ih { d with rcv := tcpFreeReassembly h d.rcv, progress := true }
    split
    · exact (tcpAppendReceived_received _ d.memory d.rcv).trans
        (ih ⟨tcpFreeReassembly h _, _, true, true⟩)
    · exact ih d

theorem drainLoop_received (fuel : Nat) (memory : List Bool) (r : Receiver) :
    r.received.length ≤ (drainLoop fuel memory r).2.received.length := by
  induction fuel generalizing memory r with
  | zero => exact le_rfl
  | succ fuel ih =>
    have hpass := drainPass_received r.reasm ⟨r, memory, false, false⟩
    rw [drainLoop]
    dsimp only
    split
    · refine hpass.trans (le_trans ?_ (ih _ _))
      exact le_rfl
    · exact hpass

/-- Data that reaches the receive side is answered at once, or it is put into the queue. -/
theorem receiveTrimmed_noticed (now : Nat) (psh : Bool) (seq : Seq) {data : List UInt8}
    (hdata : data.length ≠ 0) (s : Socket) :
    s.wire.length < (receiveTrimmed now [] psh seq data s).wire.length ∨
      s.rcv.received.length < (receiveTrimmed now [] psh seq data s).rcv.received.length := by
  unfold receiveTrimmed
  dsimp only
  split
  · exact .inl (by simp [tcpSendControl, tcpTransmit, netTransmit])
  split
  · exact .inl (by simp [tcpTransmit, netTransmit])
  right
  rw [acknowledgeData_rcv]
  refine lt_of_lt_of_le ?_ (drainLoop_received _ _ _)
  have hkept : (if (seq - s.rcv.recvNext).toNat + data.length > tcpReceiveSpace s.rcv then
      data.take (tcpReceiveSpace s.rcv - (seq - s.rcv.recvNext).toNat) else data).length ≠ 0 := by
    split
    · rw [length_take]
      omega
    · exact hdata
  rw [tcpAppendReceived, if_neg hkept]
  simp [allocate]

theorem tcpReceiveData_noticed (now : Nat) {seg : TcpSegmentInfo} (hdata : seg.payload.length ≠ 0)
    (s : Socket) : s.wire.length < (tcpReceiveData now [] seg s).wire.length ∨
      s.rcv.received.length < (tcpReceiveData now [] seg s).rcv.received.length := by
  unfold tcpReceiveData
  split
  · dsimp only
    split
    · exact .inl (by simp [tcpTransmit, netTransmit])
    · refine receiveTrimmed_noticed now _ _ ?_ s
      rw [length_drop]
      omega
  · exact receiveTrimmed_noticed now _ _ hdata s

theorem processFin_taken {seg : TcpSegmentInfo} {s : Socket} (now : Nat) (h : BringsFin seg s.rcv) :
    (processFin now seg s).rcv.peerFinSeen := by
  obtain ⟨hfin, hnext, hopen⟩ := h
  unfold processFin
  rw [if_pos hfin, if_pos ⟨hnext, by simp [hopen]⟩, (stateAfterFin_same now _).2.1]
  rfl

theorem processFin_received (now : Nat) (seg : TcpSegmentInfo) (s : Socket) :
    (processFin now seg s).rcv.received = s.rcv.received := by
  unfold processFin
  dsimp only
  split
  · split
    · rw [(stateAfterFin_same now _).2.1]
      rfl
    · split <;> rfl
  · rfl

/-! ## A segment from off the path -/

section

variable {seg : TcpSegmentInfo} {s : Socket} (now : Nat) (memory : List Bool)

theorem advanceClose_calm (h : ¬ ClosePending s) : advanceClose now s = s := by
  unfold advanceClose
  split
  · rename_i hfin
    rw [if_neg (fun hs => h ⟨hfin, .inl hs⟩), if_neg (fun hs => h ⟨hfin, .inr (.inl hs)⟩),
      if_neg (fun hs => h ⟨hfin, .inr (.inr hs)⟩)]
  · rfl

theorem advanceClose_advances (h : ClosePending s) :
    s.state.stage < (advanceClose now s).state.stage := by
  obtain ⟨hfin, hs | hs | hs⟩ := h <;> simp [advanceClose, hfin, hs, stage]

theorem completeOpen_calm (h : s.state.synchronized) : completeOpen s = s := by
  unfold completeOpen
  rw [if_neg]
  rintro ⟨hs, -⟩
  rw [hs] at h
  cases h

theorem processAcked_calm
    (hsync : s.state.synchronized) (h : ¬ ClosePending (tcpProcessAck now seg s)) :
    processAcked now memory seg s = processContents now memory seg (tcpProcessAck now seg s) := by
  have hstate := (tcpProcessAck_sends now seg s).state
  rw [← hstate] at hsync
  unfold processAcked
  rw [if_neg (not_closed hsync), completeOpen_calm hsync, advanceClose_calm now h,
    if_neg (not_closed hsync)]

theorem BadAck.early (h : BadAck seg s.snd) : seqGt seg.ack s.snd.sendMax := by
  obtain ⟨-, hpast, hnear⟩ := h
  have hdiff : seg.ack - s.snd.sendMax =
      (seg.ack - s.snd.sendUnacked) - (s.snd.sendMax - s.snd.sendUnacked) := by
    apply BitVec.eq_of_toNat_eq
    simp only [BitVec.toNat_sub]
    omega
  rw [seqGt, hdiff, decide_eq_true_eq, BitVec.toInt_eq_toNat_cond, BitVec.toNat_sub]
  split <;> omega

/-- If the acknowledgement number is acceptable, the segment is outside the window. -/
theorem OffPath.outside (h : OffPath seg s) (hlate : seqGt seg.ack s.snd.sendMax = false) :
    OutsideWindow seg s.rcv := by
  rcases h with hout | hbad
  · exact hout
  · rw [hbad.early] at hlate
    cases hlate

/-- The ACKs that a segment gets: for its acknowledgement, its payload and its FIN. -/
theorem tcpProcessAck_answered (h : seqGt seg.ack s.snd.sendMax = false → AckIdle seg s.snd) :
    Answered (if seqGt seg.ack s.snd.sendMax then 1 else 0) s (tcpProcessAck now seg s) := by
  split_ifs with hearly
  · rw [tcpProcessAck, if_pos hearly]
    exact tcpSendControl_answered s
  · have hlate' := Bool.eq_false_iff.2 hearly
    exact tcpProcessAck_idle now hlate' (h hlate')

/-- How many ACKs a segment gets: for its acknowledgement, its payload and its FIN. -/
def answers (seg : TcpSegmentInfo) (s : Socket) : Nat :=
  (if seqGt seg.ack s.snd.sendMax then 1 else 0) + (if BringsPayload seg s then 1 else 0) +
    if RepeatsFin seg s.rcv then 1 else 0

/-- All of `processTcpSegment` but the output. -/
theorem contents_answered (hidle : seqGt seg.ack s.snd.sendMax = false → AckIdle seg s.snd)
    (hdata : BringsPayload seg s → OutsideWindow seg s.rcv) (hfin : ¬ BringsFin seg s.rcv) :
    Answered (answers seg s) s
      (processFin now seg (afterPayload now memory seg (tcpProcessAck now seg s))) := by
  have hack := tcpProcessAck_answered now hidle
  have hpayload := afterPayload_answered now memory seg (tcpProcessAck now seg s) (by
    rw [hack.bringsPayload, hack.rcv]
    exact hdata)
  have hlast := processFin_answered now seg (afterPayload now memory seg (tcpProcessAck now seg s))
    (by rw [hpayload.rcv, hack.rcv]; exact hfin)
  have hall := (hack.trans hpayload).trans hlast
  simp only [hpayload.rcv, hack.rcv, hack.bringsPayload] at hall
  exact hall

theorem HarmlessAcked.answers_le (h : HarmlessAcked seg s) : answers seg s ≤ 1 := by
  unfold answers
  cases hack : seqGt seg.ack s.snd.sendMax with
  | true =>
    obtain ⟨hpayload, hfin⟩ := h.early hack
    simp [hpayload, hfin]
  | false =>
    by_cases hpayload : BringsPayload seg s
    · simp [hpayload, ((h.late hack).2 hpayload).2]
    · by_cases hfin : RepeatsFin seg s.rcv <;> simp [hpayload, hfin]

theorem HarmlessAcked.unmoved (h : HarmlessAcked seg s) (hoff : OffPath seg s)
    (hsync : s.state.synchronized) (now : Nat) (memory : List Bool) :
    Unmoved s (processAcked now memory seg s) := by
  have hack := tcpProcessAck_answered now fun hlate => (h.late hlate).1
  have hlate : BringsPayload seg s → seqGt seg.ack s.snd.sendMax = false := by
    intro hbrings
    by_contra hearly
    exact (h.early (Bool.not_eq_false _ ▸ hearly)).1 hbrings
  have hall := contents_answered now memory (fun hlate => (h.late hlate).1)
    (fun hbrings => hoff.outside (hlate hbrings)) h.fin
  obtain ⟨deadline, hout⟩ := tcpOutput_idle now (by rw [hall.state]; exact hsync)
    (hall.nothingToSend.2 h.output)
  rw [processAcked_calm now memory hsync (hack.closePending.not.2 h.close),
    processContents_eq now memory (by
      rw [hack.bringsPayload, hack.orphan]
      exact fun hbrings => ((h.late (hlate hbrings)).2 hbrings).1), hout]
  exact (hall.timer deadline).unmoved h.answers_le

theorem later_processAcked (seg : TcpSegmentInfo) (hsync : s.state.synchronized) :
    Later (advanceClose now (completeOpen (tcpProcessAck now seg s)))
      (processAcked now memory seg s) := by
  rw [← (tcpProcessAck_sends now seg s).state] at hsync
  have hopen : ¬ (tcpProcessAck now seg s).state.opening := by
    rw [opening_iff]
    exact not_opening hsync
  unfold processAcked
  dsimp only
  rw [if_neg (not_closed hsync), completeOpen_calm hsync]
  split
  · exact .refl _
  refine later_processContents now memory seg _ ?_
  rw [← opening_iff]
  unfold advanceClose
  split
  · split
    · simp [opening]
    split
    · simp [opening]
    split
    · simp [opening]
    · exact hopen
  · exact hopen

theorem Unmoved.wire_le {s' : Socket} (h : Unmoved s s') : s'.wire.length ≤ s.wire.length + 1 := by
  obtain ⟨acks, hwire, hlength, -⟩ := h.wire
  rw [hwire, length_append]
  omega

/-- The acknowledgement was idle, and our own close did not go on. -/
theorem Unmoved.acknowledged (hsync : s.state.synchronized)
    (h : Unmoved s (processAcked 0 [] seg s)) :
    (seqGt seg.ack s.snd.sendMax = false → AckIdle seg s.snd) ∧ ¬ ClosePending s := by
  have hlater := later_processAcked 0 [] seg hsync
  have hstate := (tcpProcessAck_sends 0 seg s).state
  rw [completeOpen_calm (by rw [hstate]; exact hsync)] at hlater
  have hfromAck := (later_advanceClose 0 _).trans hlater
  have hidle : seqGt seg.ack s.snd.sendMax = false → AckIdle seg s.snd := by
    intro hlate
    have hsent := hfromAck.sent.resolve_left (by rw [h.state]; exact not_closed hsync)
    rw [h.queue] at hsent
    exact ackIdle_of_unmoved 0 hlate (hfromAck.sendUnacked.symm.trans h.sendUnacked)
      (hfromAck.peerWindow.symm.trans h.peerWindow) (hfromAck.cwnd.symm.trans h.cwnd) hsent
  refine ⟨hidle, fun hpending => ?_⟩
  have hack := tcpProcessAck_answered 0 hidle
  have hadvanced := advanceClose_advances 0 (hack.closePending.2 hpending)
  have hstage := hlater.stage
  rw [h.state] at hstage
  rw [hstate] at hadvanced
  omega

/-- Somebody was left to read the payload. -/
theorem Unmoved.attended {s' : Socket} (hopen : s.state ≠ .closed)
    (h : Unmoved s (processContents 0 [] seg s')) (hbrings : BringsPayload seg s') :
    s'.orphan = false := by
  by_contra horphan
  have hstate := h.state
  unfold processContents at hstate
  rw [if_pos (id hbrings : _ ∧ _), if_pos (by simpa using horphan)] at hstate
  exact hopen hstate.symm

/-- The parts after the payload, and the receive side they leave. -/
theorem later_afterPayload (seg : TcpSegmentInfo) (hsync : s.state.synchronized) :
    Later (processFin now seg (afterPayload now memory seg s))
      (tcpOutput now (processFin now seg (afterPayload now memory seg s))) := by
  refine later_output now _ (processFin_open now seg _ ?_)
  have hstate : (afterPayload now memory seg s).state = s.state := by
    unfold afterPayload
    split
    · exact (tcpReceiveData_replies now memory seg s).receives.state
    · rfl
  rw [hstate]
  exact not_opening hsync

/-- After the answer to a bad acknowledgement no payload was taken. -/
theorem Unmoved.noPayload {s' : Socket} (hsync : s'.state.synchronized)
    (hanswered : Answered 1 s s')
    (h : Unmoved s (tcpOutput 0 (processFin 0 seg (afterPayload 0 [] seg s')))) :
    ¬ BringsPayload seg s' := by
  intro hbrings
  have hlater := (later_processFin 0 seg (afterPayload 0 [] seg s')).trans
    (later_afterPayload 0 [] seg hsync)
  have hwire := hlater.wire.length_le
  have hrcv := h.rcv
  rw [(tcpOutput_sends 0 _).rcv] at hrcv
  have hreceived := processFin_received 0 seg (afterPayload 0 [] seg s')
  rw [hrcv] at hreceived
  have hmost := h.wire_le
  have hanswer := hanswered.wire_length
  rw [afterPayload, if_pos hbrings] at hwire hmost hreceived
  rcases tcpReceiveData_noticed 0 hbrings.1 s' with hacked | hqueued
  · omega
  · rw [← hreceived, hanswered.rcv] at hqueued
    omega

/-- A connection that is as it was has only been answered. -/
theorem Unmoved.harmlessAcked (hsync : s.state.synchronized) (hoff : OffPath seg s)
    (h : Unmoved s (processAcked 0 [] seg s)) : HarmlessAcked seg s := by
  obtain ⟨hidle, hclose⟩ := h.acknowledged hsync
  have hack := tcpProcessAck_answered 0 hidle
  have hsync' : (tcpProcessAck 0 seg s).state.synchronized := by
    rw [hack.state]
    exact hsync
  rw [processAcked_calm 0 [] hsync (hack.closePending.not.2 hclose)] at h
  have horphan := fun hbrings => h.attended (not_closed hsync) hbrings
  rw [processContents_eq 0 [] horphan] at h
  rw [hack.bringsPayload, hack.orphan] at horphan
  have hpayload : seqGt seg.ack s.snd.sendMax → ¬ BringsPayload seg s := by
    intro hearly
    rw [← hack.bringsPayload]
    rw [if_pos hearly] at hack
    exact h.noPayload hsync' hack
  have hdata : BringsPayload seg s → OutsideWindow seg s.rcv := by
    intro hbrings
    refine hoff.outside ?_
    by_contra hearly
    exact hpayload (Bool.not_eq_false _ ▸ hearly) hbrings
  have hfin : ¬ BringsFin seg s.rcv := by
    intro hbrings
    have hrcv := h.rcv
    rw [(tcpOutput_sends 0 _).rcv] at hrcv
    have hsame := (afterPayload_answered 0 [] seg (tcpProcessAck 0 seg s) (by
      rw [hack.bringsPayload, hack.rcv]
      exact hdata)).rcv.trans hack.rcv
    have htaken := processFin_taken 0 (by
      rw [hsame]
      exact hbrings)
    rw [hrcv, hbrings.2.2] at htaken
    cases htaken
  have hall := contents_answered 0 [] hidle hdata hfin
  have hlater := later_afterPayload 0 [] seg hsync'
  have hfew : answers seg s ≤ 1 := by
    have hlength := hall.wire_length
    have hgrown := hlater.wire.length_le
    have hmost := h.wire_le
    omega
  have hoffered : NothingToSend s := by
    by_contra hbusy
    have hsent := tcpOutput_busy 0 (by rw [hall.state]; exact hsync)
      (hall.nothingToSend.not.2 hbusy)
    rw [h.queue, hall.queue] at hsent
    exact lt_irrefl _ hsent
  unfold answers at hfew
  refine ⟨hclose, hoffered, hfin, fun hearly => ⟨hpayload hearly, fun hrepeats => ?_⟩,
    fun hlate => ⟨hidle hlate, fun hbrings => ⟨horphan hbrings, fun hrepeats => ?_⟩⟩⟩
  · rw [if_pos hearly, if_pos hrepeats] at hfew
    omega
  · rw [if_pos hbrings, if_pos hrepeats] at hfew
    omega

/-- A segment from off the path leaves a synchronized connection alone exactly if it is
harmless. -/
theorem off_path_unmoved_iff (seg : TcpSegmentInfo) (s : Socket)
    (hsync : s.state.synchronized = true) (hoff : OffPath seg s) :
    (∀ now memory, Unmoved s (processTcpSegment now memory seg s)) ↔ Harmless seg s := by
  have hopening := not_opening hsync
  have hsynSent : s.state ≠ .synSent := fun hs => hopening (.inl hs)
  unfold Harmless processTcpSegment
  by_cases hrst : seg.flags.rst = true
  · simp only [if_pos hrst, processReset, if_neg hsynSent]
    cases hin : resetInWindow seg s.rcv with
    | true =>
      simp only [Bool.true_eq_false, iff_false]
      intro hall
      exact not_closed hsync (hall 0 []).state.symm
    | false =>
      simp only [iff_true]
      exact fun _ _ => (Answered.refl s).unmoved (Nat.zero_le 1)
  · simp only [if_neg hrst, if_neg hsynSent]
    by_cases hsyn : seg.flags.syn = true
    · have hanswer : ¬ (s.state = .synReceived ∧ s.snd.queue ≠ []) := fun hs => hopening (.inr hs.1)
      simp only [if_neg hanswer, hsyn, Bool.true_or, if_true, iff_true]
      exact fun _ _ => (tcpSendControl_answered s).unmoved le_rfl
    cases hack : seg.flags.ack with
    | false =>
      simp only [if_neg hsyn, Bool.not_false, Bool.or_true, if_true, iff_true]
      exact fun _ _ => (Answered.refl s).unmoved (Nat.zero_le 1)
    | true =>
      simp only [if_neg hsyn, Bool.not_true, Bool.or_false, Bool.false_eq_true, if_false]
      exact ⟨fun hall => (hall 0 []).harmlessAcked hsync hoff,
        fun h now memory => h.unmoved hoff hsync now memory⟩

/-- A connection that has just been opened. -/
def sampleOpen : Socket :=
  processTcpSegment 6 [] sampleAck (passiveOpen 5 100 true ⟨7, 0, 1000, kTcpSyn, [], {}, short_nil⟩)

/-- A byte three megabytes past the window, with the acknowledgement and the window known. -/
def sampleStray : TcpSegmentInfo := ⟨3000008, 101, 1000, kTcpPshAck, [1], {}, by decide⟩

theorem off_path_unmoved_sample :
    Unmoved sampleOpen (processTcpSegment 7 [] sampleStray sampleOpen) := by
  have hacked : HarmlessAcked sampleStray sampleOpen := by
    refine ⟨by decide +kernel, fun _ seg rest hcons => ?_, by decide +kernel, by decide +kernel,
      by decide +kernel⟩
    cases hcons
  exact (off_path_unmoved_iff sampleStray sampleOpen (by decide) (.inl (by decide +kernel))).2
    hacked 7 []

/-- An ACK three megabytes past the window that covers the byte in flight. -/
def sampleForged : TcpSegmentInfo := ⟨3000008, 102, 1000, kTcpAck, [], {}, short_nil⟩

/-- The byte is taken from the send queue. -/
theorem off_path_frees_queue :
    ¬ ∀ (isn : Seq) (cells : List Cell) (s : Socket) (seg : TcpSegmentInfo),
      SendReached (fun _ _ => True) isn cells s → s.state.synchronized = true → OffPath seg s →
      ∀ now memory, Unmoved s (processTcpSegment now memory seg s) := by
  intro hall
  have hopen : SendReached (fun _ _ => True) 100 [.control]
      (passiveOpen 5 100 true ⟨7, 0, 1000, kTcpSyn, [], {}, by decide⟩) := .passive 5 100 true _
  have hacked := hopen.event 6 (.segment [] sampleAck) trivial rfl rfl
  have hsent := hacked.event 7 (.send false [1] [] []) trivial rfl rfl
  have hqueue := (hall _ _ _ sampleForged hsent (by decide +kernel) (.inl (by decide +kernel))
    8 []).queue
  exact absurd hqueue (by decide +kernel)

end

end InstantOS.Tcp

import InstantOS.Net.TcpReceive

/-!
# Stream integrity over whole runs

A run of a connection starts when the peer's SYN is taken in, and goes on with inbound segments
cut from one stream in any way, with system calls, timer ticks and failing allocations in any
order.
-/

namespace InstantOS.Tcp

open Base TcpState List

variable {stream : List UInt8} {irs : Seq} {returned : List UInt8} (now : Nat)

/-! ## Reading -/

/-- The copy loop hands out the queue from its front. -/
theorem recvLoop_spec (length writable : Nat) (chunks : List (List UInt8)) (copied : List UInt8)
    (hchunks : ∀ c ∈ chunks, c ≠ []) :
    let result := recvLoop length writable chunks copied
    result.1 ++ result.2.1.flatten = copied ++ chunks.flatten ∧ (∀ c ∈ result.2.1, c ≠ []) ∧
      copied.length ≤ result.1.length ∧
      (copied.length < length → chunks ≠ [] → result.2.2 = false →
        copied.length < result.1.length) := by
  induction chunks generalizing copied with
  | nil => simp [recvLoop]
  | cons chunk rest ih =>
    have hchunk : 0 < chunk.length := length_pos_of_ne_nil (hchunks chunk mem_cons_self)
    have hrest : ∀ c ∈ rest, c ≠ [] := fun c hc => hchunks c (mem_cons_of_mem chunk hc)
    unfold recvLoop
    split
    · dsimp only
      split
      · exact ⟨rfl, hchunks, le_rfl, by simp⟩
      split
      · refine ⟨?_, ?_, ?_, fun _ _ _ => ?_⟩
        · rw [flatten_cons, flatten_cons, append_assoc,
            ← append_assoc (chunk.take _), take_append_drop]
        · intro c hc
          rcases mem_cons.1 hc with rfl | hc
          · apply ne_nil_of_length_pos
            rw [length_drop]
            omega
          · exact hrest c hc
        · simp
        · rw [length_append, length_take]
          omega
      · obtain ⟨h1, h2, h3, -⟩ := ih (copied ++ chunk) hrest
        rw [length_append] at h3
        refine ⟨?_, h2, by omega, fun _ _ _ => by omega⟩
        rw [h1, flatten_cons, append_assoc]
    · rename_i hfull
      exact ⟨rfl, hchunks, le_rfl, fun hlt => absurd hlt hfull⟩

/-- Reading moves bytes from the queue to the application and can only widen the window. -/
theorem Receiving.read {r : Receiver} (h : Receiving stream irs returned r) {copied : List UInt8}
    {rest : List (List UInt8)} {queued : Nat}
    (hbytes : copied ++ rest.flatten = r.received.flatten) (hrest : ∀ c ∈ rest, c ≠ [])
    (hqueued : queued ≤ r.recvQueued) : Receiving stream irs (returned ++ copied)
      { r with received := rest, recvQueued := queued } := by
  have htaken : taken (returned ++ copied) { r with received := rest, recvQueued := queued } =
      taken returned r := by
    rw [taken, taken, append_assoc, hbytes]
  refine ⟨⟨?_, hrest, ?_, hqueued.trans h.room⟩, ?_, h.ahead, ?_⟩
  · rw [htaken]
    exact h.bytes
  · rw [htaken]
    exact h.next
  · rw [htaken]
    intro x hx
    cases hfin : r.peerFinSeen with
    | true =>
      have hempty : r.reasm = [] := (h.ended hfin).2
      rw [hempty] at hx
      cases hx
    | false =>
      obtain ⟨hdata, k, hseq, hrun, hk, hhigh⟩ := h.held_ahead hfin hx
      exact ⟨hdata, k, hseq, hrun, by omega, by dsimp only; omega⟩
  · rw [htaken]
    exact h.ended

variable {s : Socket}

theorem Receiving.recvQueuedData (h : Receiving stream irs returned s.rcv) (length writable : Nat) :
    Receiving stream irs (returned ++ (recvQueuedData length writable s).1)
        (recvQueuedData length writable s).2.2.rcv ∧
      (recvQueuedData length writable s).2.2.state = s.state ∧
      (recvQueuedData length writable s).2.2.rcv.peerFinSeen = s.rcv.peerFinSeen := by
  have hspec := recvLoop_spec length writable s.rcv.received [] h.chunks
  unfold Tcp.recvQueuedData
  generalize recvLoop length writable s.rcv.received [] = result at hspec ⊢
  obtain ⟨copied, rest, failed⟩ := result
  obtain ⟨hbytes, hrest, -, -⟩ := hspec
  cases failed with
  | true => exact ⟨h.read hbytes hrest le_rfl, rfl, rfl⟩
  | false =>
    have hsends := tcpSendWindowUpdate_sends { s with rcv := { s.rcv with
      received := rest
      recvQueued := s.rcv.recvQueued -
        (if copied.length < s.rcv.recvQueued then copied.length else s.rcv.recvQueued) } }
    dsimp only
    rw [hsends.rcv]
    exact ⟨h.read hbytes hrest (Nat.sub_le _ _), hsends.state, rfl⟩

theorem Receiving.sysRecv (h : Receiving stream irs returned s.rcv) (mayWait : Bool)
    (length writable : Nat) :
    Receiving stream irs (returned ++ (sysRecv mayWait length writable s).1)
        (sysRecv mayWait length writable s).2.2.rcv ∧
      (sysRecv mayWait length writable s).2.2.state = s.state ∧
      (sysRecv mayWait length writable s).2.2.rcv.peerFinSeen = s.rcv.peerFinSeen := by
  unfold Tcp.sysRecv
  split
  · simpa [takeSocketError] using h
  split
  · simpa using h
  split
  · simpa using h
  split
  · exact h.recvQueuedData length writable
  split
  · simpa using h
  · simpa using h

/-- An answer of 0 to a read of at least one byte comes with an empty queue. -/
theorem sysRecv_zero (hchunks : ∀ c ∈ s.rcv.received, c ≠ []) {mayWait : Bool}
    {length writable : Nat} (hlength : 0 < length)
    (hzero : (sysRecv mayWait length writable s).2.1 = .returns 0) : s.rcv.received = [] := by
  by_contra hne
  have hspec := recvLoop_spec length writable s.rcv.received [] hchunks
  simp only [Tcp.sysRecv, hne, and_false, if_false, Nat.ne_of_gt hlength, ne_eq, not_false_eq_true,
    if_true, Tcp.recvQueuedData] at hzero
  generalize recvLoop length writable s.rcv.received [] = result at hspec hzero
  obtain ⟨copied, rest, failed⟩ := result
  cases failed with
  | true =>
    dsimp only at hzero
    split at hzero
    · rename_i hcopied
      exact hcopied (Answer.returns.inj hzero)
    · cases hzero
  | false =>
    simp_all

/-! ## Events that bring no data -/

/-- The states in which data or the FIN of the peer is still taken. -/
def TcpState.receives (state : TcpState) : Bool := state = .synReceived || state.acceptsData

/-- The receive stream is as it was; at most the hold list has been given up. -/
structure Quiet (s s' : Socket) : Prop where
  rcv : s'.rcv = s.rcv ∨ s'.rcv = { s.rcv with reasm := [] }
  state : s'.state.receives → s.state.receives
  left : s.state ≠ .synSent → s'.state ≠ .synSent

theorem Quiet.refl (s : Socket) : Quiet s s := ⟨.inl rfl, id, id⟩

theorem Quiet.trans {s s' s'' : Socket} (h : Quiet s s') (h' : Quiet s' s'') : Quiet s s'' := by
  refine ⟨?_, h.state ∘ h'.state, h'.left ∘ h.left⟩
  rcases h.rcv with h1 | h1 <;> rcases h'.rcv with h2 | h2 <;> simp [h1, h2]

variable {s s' : Socket}

theorem Sends.quiet (h : Sends s s') : Quiet s s' :=
  ⟨.inl h.rcv, by simp [h.state], by simp [h.state]⟩

theorem tcpAbort_quiet (error : Nat) (s : Socket) : Quiet s (tcpAbort error s) :=
  ⟨.inr rfl, by simp [tcpAbort, freeTcpQueues, receives, acceptsData],
    by simp [tcpAbort, freeTcpQueues]⟩

theorem tcpStartClose_quiet (allocated : Bool) (s : Socket) :
    Quiet s (tcpStartClose now allocated s) := by
  unfold tcpStartClose
  split
  · exact .refl s
  rename_i hguard
  refine .trans ?_ (tcpQueueSegment_sends now kTcpFinAck [] allocated _).quiet
  refine ⟨.inl rfl, ?_, ?_⟩
  · simp only [Bool.or_eq_true, Bool.not_eq_true', not_or, Bool.not_eq_false,
      decide_eq_true_eq] at hguard
    rcases hguard.2 with (h | h) | h <;> simp [h, receives, acceptsData]
  · intro _
    split <;> simp

theorem goBack_sends (s : Socket) : Sends s (goBack now s) :=
  ((Sends.refl s).setSnd _).trans (tcpOutput_sends now _)

theorem probe_sends (seg : TcpSendSegment) (s : Socket) : Sends s (probe now seg s) :=
  (sendHead_sends now s).setSnd _

theorem retransmit_quiet (s : Socket) : Quiet s (retransmit now s) := by
  unfold retransmit
  dsimp only
  split
  · exact ((Sends.refl s).setSnd _).quiet
  split
  · exact ((Sends.refl s).setSnd _).quiet.trans (tcpAbort_quiet _ _)
  · split
    · exact (((Sends.refl s).setSnd _).setSnd _ |>.trans (probe_sends now _ _)).quiet
    · exact (((Sends.refl s).setSnd _).setSnd _ |>.trans (goBack_sends now _)).quiet

theorem acknowledgeIfDue_sends (s : Socket) : Sends s (acknowledgeIfDue now s) := by
  unfold acknowledgeIfDue
  split
  · rfl
  · exact .refl s

theorem tcpTimers_quiet (s : Socket) : Quiet s (tcpTimers now s) := by
  unfold tcpTimers
  refine (acknowledgeIfDue_sends now s).quiet.trans ?_
  dsimp only
  split
  · split
    · exact ⟨.inr rfl, by simp [freeTcpQueues, receives, acceptsData], by simp [freeTcpQueues]⟩
    · exact .refl _
  · split
    · exact .refl _
    · exact retransmit_quiet now _

theorem takeSocketError_quiet (s : Socket) : Quiet s (takeSocketError s).2 := ⟨.inl rfl, id, id⟩

theorem sendLoop_quiet (mayWait : Bool) (fuel : Nat) (data : List UInt8)
    (offset : Nat) (memory copies : List Bool) (s : Socket) :
    Quiet s (sendLoop now mayWait fuel data offset memory copies s).2 := by
  induction fuel generalizing data offset memory copies s with
  | zero => exact .refl s
  | succ fuel ih =>
    unfold sendLoop
    split
    · exact .refl s
    split
    · split
      · exact .refl s
      · exact takeSocketError_quiet s
    split
    · exact .refl s
    split
    · exact .refl s
    split
    · exact .refl s
    split
    · exact .refl s
    have hsends := tcpQueueSegment_sends now kTcpPshAck
      (data.take (sendChunk s.snd data.length)) (allocate memory).1 s
    dsimp only
    split
    · rename_i hqueue
      rw [hqueue] at hsends
      exact hsends.quiet
    · rename_i hqueue
      rw [hqueue] at hsends
      exact hsends.quiet.trans (ih _ _ _ _ _)

theorem sysSend_quiet (mayWait : Bool) (data : List UInt8) (memory copies : List Bool)
    (s : Socket) : Quiet s (sysSend now mayWait data memory copies s).2 := by
  unfold sysSend
  split
  · exact .refl s
  split
  · exact .refl s
  split
  · exact .refl s
  · exact sendLoop_quiet now mayWait _ data 0 memory copies s

theorem sysShutdown_quiet (how : ShutdownMode) (allocated : Bool) (s : Socket) :
    Quiet s (sysShutdown now how allocated s) := by
  cases how with
  | read => exact ⟨.inl rfl, id, id⟩
  | write | both =>
    refine .trans ?_ (tcpStartClose_quiet now allocated _)
    exact ⟨.inl rfl, id, id⟩

variable {now : Nat} {seg : TcpSegmentInfo}

theorem destroySocketObject_quiet {hardLinger allocated : Bool}
    (h : destroySocketObject now hardLinger allocated s = some s') : Quiet s s' := by
  unfold destroySocketObject tcpBeginOrphan at h
  split at h
  · cases h
  split at h
  · split at h
    · cases h
    · cases h
      have hclose := tcpStartClose_quiet now allocated s
      exact { hclose with }
  · cases h

theorem socketTcpTick_quiet (h : socketTcpTick now s = some s') : Quiet s s' := by
  unfold socketTcpTick at h
  dsimp only at h
  split at h
  · cases h
  · cases h
    exact tcpTimers_quiet now s

theorem socketProcessIcmpError_quiet (tcpSeq : Seq) (error : Nat) (s : Socket) :
    Quiet s (socketProcessIcmpError tcpSeq error s) := by
  unfold socketProcessIcmpError
  split
  · exact .refl s
  split
  · exact .refl s
  split
  · exact tcpAbort_quiet error s
  · exact ⟨.inl rfl, id, id⟩

/-! ## Segments -/

/-- The connection has taken in the peer's SYN, and the stream is in order. -/
structure Joined (stream : List UInt8) (irs : Seq) (returned : List UInt8) (s : Socket) :
    Prop where
  receiving : Receiving stream irs returned s.rcv
  ended : s.rcv.peerFinSeen → s.state.receives = false
  left : s.state ≠ .synSent

theorem Joined.quiet (h : Joined stream irs returned s) (hquiet : Quiet s s') :
    Joined stream irs returned s' := by
  have hfin : s'.rcv.peerFinSeen = s.rcv.peerFinSeen := by
    rcases hquiet.rcv with hrcv | hrcv <;> rw [hrcv]
  refine ⟨?_, fun hseen => ?_, hquiet.left h.left⟩
  · rcases hquiet.rcv with hrcv | hrcv
    · rw [hrcv]
      exact h.receiving
    · rw [hrcv]
      exact h.receiving.dropHeld
  · rw [hfin] at hseen
    have hbefore := h.ended hseen
    by_contra hafter
    rw [hquiet.state (Bool.not_eq_false _ ▸ hafter)] at hbefore
    cases hbefore

theorem completeOpen_quiet (s : Socket) : Quiet s (completeOpen s) := by
  unfold completeOpen
  split
  · rename_i hopen
    exact ⟨.inl rfl, fun _ => by simp [receives, hopen.1], by simp⟩
  · exact .refl s

theorem advanceClose_quiet (now : Nat) (s : Socket) : Quiet s (advanceClose now s) := by
  unfold advanceClose
  split
  · split
    · rename_i hstate
      exact ⟨.inl rfl, fun _ => by simp [receives, acceptsData, hstate], by simp⟩
    split
    · exact ⟨.inl rfl, by simp [receives, acceptsData], by simp⟩
    split
    · exact ⟨.inl rfl, by simp [receives, acceptsData], by simp⟩
    · exact .refl s
  · exact .refl s

/-- The payload of a segment is cut from the stream at the position its number says, a FIN stands
at the end of the stream, and `ok` holds of the bytes taken in so far, that position and the
length. -/
def FromPeer (ok : Nat → Nat → Nat → Prop) (stream : List UInt8) (irs : Seq) (count : Nat)
    (seg : TcpSegmentInfo) : Prop :=
  seg.flags.syn = false → seg.payload ≠ [] ∨ seg.flags.fin = true →
    ∃ k, seg.seq = seqOf (first irs + k) ∧ seg.payload <+: stream.drop k ∧
      (seg.flags.fin = true → k + seg.payload.length = stream.length) ∧
      ok count k seg.payload.length

theorem stateAfterFin_receives (now : Nat) (s : Socket) :
    (stateAfterFin now s).state.receives = false := by
  unfold stateAfterFin
  split
  · rfl
  · rfl
  · split <;> rfl
  · rfl
  · cases hstate : s.state <;> simp_all [receives, acceptsData]

theorem stateAfterFin_left (now : Nat) (h : s.state ≠ .synSent) :
    (stateAfterFin now s).state ≠ .synSent := by
  unfold stateAfterFin
  split
  · simp
  · simp
  · split <;> simp
  · simp
  · exact h

/-- The FIN of a segment, with the bytes taken in since it arrived bounded by the window. -/
theorem Joined.processFin {k : Nat}
    (h : Joined stream irs returned s) (hseq : seg.seq = seqOf (first irs + k))
    (hend : seg.flags.fin → k + seg.payload.length = stream.length)
    (hlow : (taken returned s.rcv).length < k + seg.payload.length + 4294967296)
    (hhigh : k + seg.payload.length < (taken returned s.rcv).length + 4294967296) (now : Nat) :
    Joined stream irs returned (processFin now seg s) := by
  unfold Tcp.processFin
  split
  · rename_i hfin
    dsimp only
    split
    · rename_i hnext
      have hopen : s.rcv.peerFinSeen = false := by simpa using hnext.2
      have hall : (taken returned s.rcv).length = stream.length := by
        have heq := hnext.1
        rw [h.receiving.next_open hopen, hseq, ← seqOf_add, seqOf_inj (by omega) (by omega)] at heq
        have := hend hfin
        omega
      refine ⟨?_, fun _ => stateAfterFin_receives now _, stateAfterFin_left now h.left⟩
      rw [(stateAfterFin_same now _).2.1]
      exact h.receiving.finish hopen hall
    · split
      · exact h.quiet (tcpSendControl_sends kTcpAck s).quiet
      · exact h
  · exact h

/-- Payload and FIN of a segment of the peer. -/
theorem Joined.processContents (h : Joined stream irs returned s) (hsyn : seg.flags.syn = false)
    (hpeer : FromPeer Timely stream irs (taken returned s.rcv).length seg) (now : Nat)
    (memory : List Bool) : Joined stream irs returned (processContents now memory seg s) := by
  unfold Tcp.processContents
  by_cases hcontents : seg.payload ≠ [] ∨ seg.flags.fin
  · obtain ⟨k, hseq, hrun, hend, htimely⟩ := hpeer hsyn hcontents
    have hlow := htimely.1
    have hhigh := htimely.2
    simp only [kTcpReceiveBuffer] at hlow
    split
    · rename_i hdata
      have hopen : s.rcv.peerFinSeen = false := by
        by_contra hseen
        have hended := h.ended (Bool.not_eq_false _ ▸ hseen)
        simp [receives, hdata.2] at hended
      split
      · refine (h.quiet (Sends.quiet ?_)).quiet (tcpAbort_quiet _ _)
        rfl
      have hpayload : seg.payload ≠ [] := by simpa using hdata.1
      obtain ⟨hreceiving, hgrown⟩ :=
        h.receiving.receiveData hopen hseq hrun hpayload htimely now memory
      obtain ⟨n, hn, hqueued⟩ := hgrown.amount
      have hroom := hreceiving.room
      simp only [kTcpReceiveBuffer] at hroom
      have hstate := (tcpReceiveData_replies now memory seg s).receives.state
      have hjoined : Joined stream irs returned (tcpReceiveData now memory seg s) := by
        refine ⟨hreceiving, fun hseen => ?_, by rw [hstate]; exact h.left⟩
        rw [hgrown.fin, hopen] at hseen
        cases hseen
      exact (hjoined.processFin hseq hend (by omega) (by omega) now).quiet
        (tcpOutput_sends now _).quiet
    · exact (h.processFin hseq hend (by omega) (by omega) now).quiet (tcpOutput_sends now _).quiet
  · obtain ⟨hpayload, hfin⟩ := not_or.1 hcontents
    rw [not_not] at hpayload
    simp only [hpayload, length_nil, ne_eq]
    refine .quiet ?_ (tcpOutput_sends now _).quiet
    simpa [Tcp.processFin, hfin] using h

theorem Joined.processTcpSegment (h : Joined stream irs returned s)
    (hpeer : FromPeer Timely stream irs (taken returned s.rcv).length seg) (now : Nat)
    (memory : List Bool) : Joined stream irs returned (processTcpSegment now memory seg s) := by
  unfold Tcp.processTcpSegment
  split
  · unfold processReset
    simp only [h.left, if_false]
    split
    · exact h.quiet (tcpAbort_quiet _ s)
    · exact h
  simp only [h.left, if_false]
  split
  · split
    · exact h.quiet (sendHead_sends now s).quiet
    · exact h.quiet (tcpSendControl_sends kTcpAck s).quiet
  split
  · exact h
  rename_i hsyn hack
  unfold processAcked
  have hacked := tcpProcessAck_sends now seg s
  have hjoined := h.quiet hacked.quiet
  dsimp only
  split
  · exact hjoined
  have hquiet := (completeOpen_quiet (tcpProcessAck now seg s)).trans (advanceClose_quiet now _)
  have hrcv : (taken returned (advanceClose now (completeOpen (tcpProcessAck now seg s))).rcv) =
      taken returned s.rcv := by
    rcases hquiet.rcv with hrcv | hrcv <;> simp [taken, hrcv, hacked.rcv]
  split
  · exact hjoined.quiet hquiet
  · refine (hjoined.quiet hquiet).processContents (by simpa using hsyn) ?_ now memory
    rw [hrcv]
    exact hpeer

/-! ## Runs -/

/-- What the peer sends comes from its stream, and the connection is not opened again. -/
def Event.FromPeer (ok : Nat → Nat → Nat → Prop) (stream : List UInt8) (irs : Seq) (count : Nat) :
    Event → Prop
  | segment _ seg => Tcp.FromPeer ok stream irs count seg
  | connect _ _ => False
  | _ => True

/-- The states of a connection, with the bytes its application has been given.  It begins with the
peer's SYN: to a listener, or to a socket that waits for the answer to its own SYN and had nothing
in its receive queues when it was connected. -/
inductive Reached (ok : Nat → Nat → Nat → Prop) (stream : List UInt8) (irs : Seq) :
    Socket → List UInt8 → Prop
  | passive (now : Nat) (isn : Seq) (allocated : Bool) (seg : TcpSegmentInfo)
      (hseq : seg.seq = irs) : Reached ok stream irs (passiveOpen now isn allocated seg) []
  | active (now : Nat) (memory : List Bool) (seg : TcpSegmentInfo) (s : Socket)
      (hstate : s.state = .synSent) (hrcv : s.rcv = {}) (hrst : seg.flags.rst = false)
      (hseq : seg.seq = irs) (hleft : (processTcpSegment now memory seg s).state ≠ .synSent) :
      Reached ok stream irs (processTcpSegment now memory seg s) []
  | event {s s' : Socket} {returned : List UInt8} (hreached : Reached ok stream irs s returned)
      (now : Nat) (e : Event)
      (hpeer : e.FromPeer ok stream irs (taken returned s.rcv).length)
      (hrun : e.run now s = some s') : Reached ok stream irs s' (returned ++ e.returned s)

/-- The receive side right after the peer's SYN. -/
theorem receiving_syn (irs : Seq) : Receiving stream irs [] { recvNext := irs + 1 } := by
  refine ⟨⟨ nil_prefix, by simp, ?_, Nat.zero_le _⟩, by simp, by simp, by simp⟩
  change irs + 1 = seqOf (first irs + 0 + 0)
  rw [first, seqOf_succ, seqOf_toNat]

theorem joined_passive (now : Nat) (isn : Seq) (allocated : Bool) (seg : TcpSegmentInfo) :
    Joined stream seg.seq [] (passiveOpen now isn allocated seg) := by
  refine .quiet ?_ (tcpQueueSegment_sends now kTcpSynAck [] allocated _).quiet
  exact ⟨receiving_syn seg.seq, by simp [tcpEstablish, tcpInitConnection], by simp [tcpEstablish]⟩

theorem joined_active (hstate : s.state = .synSent)
    (hrcv : s.rcv = {}) (now : Nat) (hleft : (processSynSent now seg s).state ≠ .synSent) :
    Joined stream seg.seq [] (processSynSent now seg s) := by
  have hsynced : Receiving stream seg.seq [] { s.rcv with recvNext := seg.seq + 1 } := by
    rw [hrcv]
    exact receiving_syn seg.seq
  unfold processSynSent at hleft ⊢
  split
  · rename_i hsyn
    split
    · rename_i hbad
      simp only [hsyn, hbad, if_true] at hleft
      refine absurd ?_ hleft
      unfold tcpRefuseSegment
      split
      · exact hstate
      · split <;> exact hstate
    · exact ⟨hsynced, by simp [hrcv, tcpEstablish],
        by simp [tcpSendControl, tcpTransmit, netTransmit]⟩
  · split
    · have hjoined : Joined stream seg.seq [] { tcpEstablish seg.options { s with
          snd := { s.snd with peerWindow := seg.window.toNat }
          rcv := { s.rcv with recvNext := seg.seq + 1 } } with state := .synReceived } :=
        ⟨hsynced, by simp [hrcv, tcpEstablish], by simp⟩
      dsimp only
      split
      · exact hjoined
      · exact hjoined.quiet (((Sends.refl _).setSnd _).trans (tcpOutput_sends now _)).quiet
    · rename_i hno hsyn
      simp only [hsyn] at hleft
      exact absurd hstate hleft

theorem Joined.event {e : Event} (h : Joined stream irs returned s)
    (hpeer : e.FromPeer Timely stream irs (taken returned s.rcv).length)
    (hrun : e.run now s = some s') : Joined stream irs (returned ++ e.returned s) s' := by
  have hstart : Joined stream irs returned { s with wire := [] } :=
    { h with }
  have hquiet : Quiet { s with wire := [] } s' → Joined stream irs (returned ++ []) s' := by
    rw [append_nil]
    exact hstart.quiet
  cases e with
  | segment memory seg =>
    cases hrun
    have hjoined := hstart.processTcpSegment hpeer now memory
    rwa [← append_nil returned] at hjoined
  | recv mayWait length writable =>
    cases hrun
    obtain ⟨hreceiving, hstate, hfin⟩ := hstart.receiving.sysRecv mayWait length writable
    refine ⟨hreceiving, fun hseen => ?_, by rw [hstate]; exact h.left⟩
    rw [hstate]
    exact h.ended (hfin ▸ hseen)
  | send mayWait data memory copies =>
    cases hrun
    exact hquiet (sysSend_quiet now mayWait data memory copies _)
  | resumeSend mayWait offset data memory copies =>
    cases hrun
    exact hquiet (sendLoop_quiet now mayWait _ data offset memory copies _)
  | shutdown how allocated =>
    cases hrun
    exact hquiet (sysShutdown_quiet now how allocated _)
  | close hardLinger allocated => exact hquiet (destroySocketObject_quiet hrun)
  | tick => exact hquiet (socketTcpTick_quiet hrun)
  | icmp tcpSeq error =>
    cases hrun
    exact hquiet (socketProcessIcmpError_quiet tcpSeq error _)
  | takeError =>
    cases hrun
    exact hquiet (takeSocketError_quiet _)
  | connect mayWait dest => exact hpeer.elim

theorem Reached.joined (h : Reached Timely stream irs s returned) :
    Joined stream irs returned s := by
  induction h with
  | passive now isn allocated seg hseq => exact hseq ▸ joined_passive now isn allocated seg
  | active now memory seg s hstate hrcv hrst hseq hleft =>
    have hprocess : Tcp.processTcpSegment now memory seg s = processSynSent now seg s := by
      simp [Tcp.processTcpSegment, hrst, hstate]
    rw [hprocess] at hleft ⊢
    exact hseq ▸ joined_active hstate hrcv now hleft
  | event _ now e hpeer hrun ih => exact ih.event hpeer hrun

/-- In every state of a connection whose segments are timely: the application has an initial part
of the peer's stream; `RCV.NXT` is the initial sequence number plus 1 plus the bytes taken in, plus
1 after the FIN; and once the FIN is in, a read answers 0 only when the application has the whole
stream. -/
theorem received_stream {s : Socket} (h : Reached Timely stream irs s returned) :
    returned <+: stream ∧ s.rcv.recvNext = irs + 1 + BitVec.ofNat 32 (taken returned s.rcv).length +
        (if s.rcv.peerFinSeen then 1 else 0) ∧
      ∀ mayWait length writable, 0 < length → s.rcv.peerFinSeen →
        (sysRecv mayWait length writable s).2.1 = .returns 0 → returned = stream := by
  have hjoined := h.joined.receiving
  refine ⟨(prefix_append _ _).trans hjoined.bytes, ?_, ?_⟩
  · rw [hjoined.next, seqOf_add, seqOf_add, first, seqOf_succ, seqOf_toNat]
    split <;> rfl
  · intro mayWait length writable hlength hseen hzero
    have hempty := sysRecv_zero hjoined.chunks hlength hzero
    have hall := (hjoined.ended hseen).1
    simpa [taken, hempty] using hall

/-! ### A run with loss, overlap and a number that wraps -/

/-- The peer's SYN, two numbers before the wrap. -/
def sampleSyn : TcpSegmentInfo := ⟨0xFFFFFFFE, 0, 1000, kTcpSyn, [], {}, short_nil⟩

/-- The end of the stream `1, 2, 3` with the FIN, the acknowledgement of our SYN on it. -/
def sampleTail : TcpSegmentInfo := ⟨0, 101, 1000, kTcpFinAck, [2, 3], {}, by decide⟩

/-- The beginning of the stream. -/
def sampleFront : TcpSegmentInfo := ⟨0xFFFFFFFF, 101, 1000, kTcpAck, [1, 2], {}, by decide⟩

/-- The tail arrives before the front, and again after it; then the application reads twice. -/
theorem sampleReached : ∃ s, Reached Timely [1, 2, 3] 0xFFFFFFFE s [1, 2, 3] ∧ s.rcv.peerFinSeen ∧
      s.rcv.recvNext = 3 ∧ (sysRecv false 5 5 s).2.1 = .returns 0 := by
  have hopen : Reached Timely [1, 2, 3] 0xFFFFFFFE (passiveOpen 5 100 true sampleSyn) [] :=
    .passive 5 100 true sampleSyn rfl
  have htail : ∀ count, count ≤ 3 → FromPeer Timely [1, 2, 3] 0xFFFFFFFE count sampleTail := by
    intro count hcount _ _
    refine ⟨1, by decide, by decide, by decide, ?_⟩
    simp only [Timely, kTcpReceiveBuffer, sampleTail, length_cons, length_nil]
    omega
  have hfront : FromPeer Timely [1, 2, 3] 0xFFFFFFFE 0 sampleFront := by
    intro _ _
    exact ⟨0, by decide, by decide, by decide, by decide⟩
  have h1 := hopen.event 6 (.segment [] sampleTail) (htail _ (by decide +kernel)) rfl
  have h2 := h1.event 7 (.segment [] sampleFront) hfront rfl
  have h3 := h2.event 8 (.segment [] sampleTail) (htail _ (by decide +kernel)) rfl
  have h4 := h3.event 9 (.recv false 2 2) trivial rfl
  have h5 := h4.event 10 (.recv false 2 2) trivial rfl
  exact ⟨_, h5, by decide +kernel, by decide +kernel, by decide +kernel⟩

theorem received_stream_sample : ∃ s : Socket, (([1, 2, 3] : List UInt8) <+: [1, 2, 3] ∧
      s.rcv.recvNext = 0xFFFFFFFE + 1 + BitVec.ofNat 32 (taken [1, 2, 3] s.rcv).length +
        (if s.rcv.peerFinSeen then 1 else 0)) ∧ s.rcv.peerFinSeen = true := by
  obtain ⟨s, hreached, hseen, -, -⟩ := sampleReached
  exact ⟨s, ⟨(received_stream hreached).1, (received_stream hreached).2.1⟩, hseen⟩

/-! ## A repetition from far back -/

section

variable {s : Socket} {q : Seq} (b : UInt8)

/-- A connection whose application has read everything. -/
structure Ready (q : Seq) (s : Socket) : Prop where
  state : s.state = .established
  rcv : s.rcv = { recvNext := q }
  orphan : s.orphan = false

/-- A segment of one byte. -/
def oneByte (q : Seq) (b : UInt8) : TcpSegmentInfo :=
  ⟨q, 101, 1000, kTcpAck, [b], {}, Nat.lt_of_sub_eq_succ rfl⟩

theorem Ready.receiveData (h : Ready q s) (now : Nat) :
    (tcpReceiveData now [] (oneByte q b) s).rcv =
      { recvNext := q + 1, received := [[b]], recvQueued := 1 } := by
  simp [Tcp.tcpReceiveData, receiveTrimmed, h.rcv, oneByte, seqLt, tcpReceiveSpace,
    kTcpReceiveBuffer, tcpAppendReceived, allocate, tcpDrainReassembly, drainLoop, drainPass]

theorem Ready.sends {s' : Socket} (h : Ready q s) (hsends : Sends s s') : Ready q s' :=
  ⟨hsends.state.trans h.state, hsends.rcv.trans h.rcv, hsends.orphan.trans h.orphan⟩

theorem Ready.take (h : Ready q s) (now : Nat) : (processTcpSegment now [] (oneByte q b) s).rcv =
        { recvNext := q + 1, received := [[b]], recvQueued := 1 } ∧
      (processTcpSegment now [] (oneByte q b) s).state = .established ∧
      (processTcpSegment now [] (oneByte q b) s).orphan = false := by
  have hack := h.sends (tcpProcessAck_sends now (oneByte q b) s)
  have hprocess : processTcpSegment now [] (oneByte q b) s =
      processAcked now [] (oneByte q b) s := by
    simp [Tcp.processTcpSegment, oneByte, kTcpAck, h.state]
  rw [hprocess, processAcked]
  generalize tcpProcessAck now (oneByte q b) s = s1 at hack ⊢
  have hopened : advanceClose now (completeOpen s1) = s1 := by
    simp [advanceClose, completeOpen, hack.state]
  have hcontents : Tcp.processContents now [] (oneByte q b) s1 =
      tcpOutput now (tcpReceiveData now [] (oneByte q b) s1) := by
    simp [Tcp.processContents, Tcp.processFin, hack.state, hack.orphan, acceptsData,
      oneByte, kTcpAck]
  have hout := tcpOutput_sends now (tcpReceiveData now [] (oneByte q b) s1)
  have hdata := (tcpReceiveData_replies now [] (oneByte q b) s1).receives
  simp only [hopened, hack.state, hcontents]
  exact ⟨hout.rcv.trans (hack.receiveData b now), hout.state.trans (hdata.state.trans hack.state),
    hout.orphan.trans (hdata.orphan.trans hack.orphan)⟩

/-- The application reads the byte. -/
theorem Ready.read (hrcv : s.rcv = { recvNext := q + 1, received := [[b]], recvQueued := 1 })
    (hstate : s.state = .established) (horphan : s.orphan = false) :
    (sysRecv false 1 1 s).1 = [b] ∧ Ready (q + 1) (sysRecv false 1 1 s).2.2 := by
  have hrecv : sysRecv false 1 1 s = ([b], .returns 1, tcpSendWindowUpdate
      { s with rcv := { recvNext := q + 1 } }) := by
    simp [Tcp.sysRecv, hrcv, Tcp.recvQueuedData, recvLoop]
  have hsends := tcpSendWindowUpdate_sends { s with rcv := { recvNext := q + 1 } }
  rw [hrecv]
  exact ⟨rfl, hsends.state.trans hstate, hsends.rcv, hsends.orphan.trans horphan⟩

end

/-- A byte that stands at position `k` modulo `2^32` of what has been read can be sent, taken in
and read, if nothing is asked about its distance. -/
theorem Reached.byte {k : Nat} {b : UInt8} (h : Reached (fun _ _ _ => True) stream irs s returned)
    (hready : Ready (seqOf (first irs + k)) s) (hrun : [b] <+: stream.drop k) :
    ∃ s', Reached (fun _ _ _ => True) stream irs s' (returned ++ [b]) ∧
      Ready (seqOf (first irs + (k + 1))) s' := by
  have hstart : Ready (seqOf (first irs + k)) { s with wire := [] } :=
    { hready with }
  obtain ⟨hrcv, hstate, horphan⟩ := hstart.take b 0
  have hsent := h.event 0 (.segment [] (oneByte (seqOf (first irs + k)) b))
    (fun _ _ => ⟨k, rfl, hrun, by simp [oneByte, kTcpAck], trivial⟩) rfl
  obtain ⟨hbyte, hnext⟩ := Ready.read (s := { processTcpSegment 0 []
    (oneByte (seqOf (first irs + k)) b) { s with wire := [] } with wire := [] }) b
    hrcv hstate horphan
  have hread := hsent.event 0 (.recv false 1 1) trivial rfl
  rw [Event.returned, hbyte, Event.returned, append_nil] at hread
  · rw [← Nat.add_assoc, seqOf_succ]
    exact ⟨_, hread, hnext⟩
  · simp

/-- The stream `1, 0, 0, …`, of one byte more than the sequence numbers tell apart. -/
def longStream (n : Nat) : List UInt8 := 1 :: List.replicate n 0

theorem Reached.bytes (n k : Nat) (hk : k ≤ n + 1) :
    ∃ s, Reached (fun _ _ _ => True) (longStream n) 7 s ((longStream n).take k) ∧
      Ready (seqOf (first 7 + k)) s := by
  induction k with
  | zero =>
    have hopen : Reached (fun _ _ _ => True) (longStream n) 7
        (passiveOpen 0 100 true ⟨7, 0, 1000, kTcpSyn, [], {}, by decide⟩) [] :=
      .passive 0 100 true _ rfl
    have hestablished := hopen.event 0 (.segment [] ⟨8, 101, 1000, kTcpAck, [], {}, by decide⟩)
      (fun _ hcontents => by simp [kTcpAck] at hcontents) rfl
    exact ⟨_, hestablished, by decide +kernel, by decide +kernel, by decide +kernel⟩
  | succ k ih =>
    obtain ⟨s, hreached, hready⟩ := ih (by omega)
    have hlength : k < (longStream n).length := by
      simp only [longStream, length_cons, length_replicate]
      omega
    obtain ⟨s', hreached', hready'⟩ := hreached.byte hready ⟨_, (drop_eq_getElem_cons hlength).symm⟩
    rw [take_append_getElem hlength] at hreached'
    exact ⟨s', hreached', hready'⟩

/-- After `2^32` bytes the first one is sent again, and is taken for the next. -/
theorem old_segment_taken_as_new :
    ¬ ∀ (stream : List UInt8) (irs : Seq) (s : Socket) (returned : List UInt8),
      Reached (fun _ _ _ => True) stream irs s returned → returned <+: stream := by
  intro hall
  have hwrap : ∀ n, n % 4294967296 = 0 → 0 < n → False := by
    intro n hn hpos
    obtain ⟨s, hreached, hready⟩ := Reached.bytes n n (Nat.le_succ n)
    have hsame : seqOf (first 7 + n) = seqOf (first 7 + 0) := by
      apply BitVec.eq_of_toNat_eq
      rw [toNat_seqOf, toNat_seqOf]
      omega
    rw [hsame] at hready
    obtain ⟨s', hreached', -⟩ := hreached.byte hready (b := 1) (by simp [longStream])
    have heq := (hall _ _ _ _ hreached').eq_of_length (by simp [longStream])
    have hlast := congrArg getLast? heq
    obtain ⟨m, rfl⟩ : ∃ m, n = m + 1 := ⟨n - 1, by omega⟩
    simp [longStream, getLast?_cons, getLast?_replicate] at hlast
  exact hwrap 4294967296 (by decide) (by decide)

end InstantOS.Tcp

import InstantOS.Net.TcpSendEvents

/-!
# The send queue over whole runs

A connection begins with a call of `sys_connect` or with a SYN to a listener and goes on with
system calls, timer ticks and arbitrary inbound segments.
-/

namespace InstantOS.Tcp

open Base List

variable {isn : Seq} {cells : List Cell} {u n m : Nat} {s : Socket}

/-! ## Sending -/

/-- One chunk of a send joins the queue. -/
theorem Sound.sendChunk (h : Sound isn cells u n m s) (harmed : Armed s)
    (hstate : s.state = .established ∨ s.state = .closeWait)
    (hspace : ¬ (s.snd.sendSeq - s.snd.sendUnacked).toNat ≥ kTcpSendBufferCap)
    {data : List UInt8} (hdata : data.length ≠ 0) (now : Nat) (allocated : Bool) :
    let chunk := data.take (sendChunk s.snd data.length)
    0 < Tcp.sendChunk s.snd data.length ∧
      ∃ n' m', Sound isn (if allocated then cells ++ chunk.map .byte else cells) u n' m'
          (tcpQueueSegment now kTcpPshAck chunk allocated s).2 ∧
        Armed (tcpQueueSegment now kTcpPshAck chunk allocated s).2 := by
  obtain ⟨hunacked, hnext, hhighest⟩ := h.sending.order
  have hroom := h.sending.room_lt
  have hmss := h.sending.mss
  have hsends : s.state.sends := by rcases hstate with hs | hs <;> rw [hs] <;> rfl
  have hnoFin : s.snd.finSent = false := by
    by_contra hsent
    obtain ⟨h1, h2, -⟩ := h.fit.finSent (Bool.not_eq_false _ ▸ hsent)
    exact hstate.elim h1 h2
  have hqueued : (s.snd.sendSeq - s.snd.sendUnacked).toNat = cells.length - u := by
    rw [h.sending.sendSeq, h.sending.unacked, toNat_seqOf_sub (by omega) (by omega)]
    omega
  rw [hqueued] at hspace
  have hsize : Tcp.sendChunk s.snd data.length ≤ data.length ∧
      cells.length + Tcp.sendChunk s.snd data.length ≤ u + kTcpSendBufferCap ∧
      0 < Tcp.sendChunk s.snd data.length ∧
      Tcp.sendChunk s.snd data.length ≤ kTcpSendBufferCap := by
    unfold Tcp.sendChunk
    rw [hqueued]
    omega
  obtain ⟨hle, hfits, hpos, hshort⟩ := hsize
  have hlength : (data.take (Tcp.sendChunk s.snd data.length)).length =
      Tcp.sendChunk s.snd data.length := by
    rw [length_take, Nat.min_eq_left hle]
  have hne : data.take (Tcp.sendChunk s.snd data.length) ≠ [] := by
    apply ne_nil_of_length_pos
    rw [hlength]
    exact hpos
  obtain ⟨hcells, hspan⟩ := segCells_of_data
    { seq := s.snd.sendSeq, flags := kTcpPshAck, data := data.take _ } hne
  have hqueue := h.queueSegment harmed hsends kTcpPshAck _ (.inl hne)
    (by rw [hspan, hlength, hnoFin]; exact hfits) (by rw [hlength]; exact hshort)
    (h.sending.noFin hnoFin).1 (h.sending.noFin hnoFin).2 nofun now allocated
  rw [hcells] at hqueue
  exact ⟨hpos, hqueue⟩

/-- The loop of `sys_send` queues an initial part of the data. -/
theorem Sound.sendLoop (h : Sound isn cells u n m s) (harmed : Armed s) (now : Nat)
    (mayWait : Bool) (fuel : Nat) (data : List UInt8) (offset : Nat) (memory copies : List Bool) :
    ∃ x n' m', Sound isn (cells ++ (data.take x).map .byte) u n' m'
        (sendLoop now mayWait fuel data offset memory copies s).2 ∧
      Armed (sendLoop now mayWait fuel data offset memory copies s).2 ∧ x ≤ data.length := by
  induction fuel generalizing data offset memory copies cells n m s with
  | zero =>
    refine ⟨0, n, m, ?_, harmed, Nat.zero_le _⟩
    rw [take_zero, map_nil, append_nil]
    exact h
  | succ fuel ih =>
    have hnone : ∃ x n' m', Sound isn (cells ++ (data.take x).map .byte) u n' m' s ∧ Armed s ∧
        x ≤ data.length := ⟨0, n, m, by simpa using h, harmed, Nat.zero_le _⟩
    unfold Tcp.sendLoop
    split
    · exact hnone
    rename_i hdata
    split
    · split
      · exact hnone
      · refine ⟨0, n, m, ?_, harmed, Nat.zero_le _⟩
        rw [take_zero, map_nil, append_nil]
        exact h.sends rfl rfl h.wire
    split
    · exact hnone
    split
    · exact hnone
    rename_i hstate
    split
    · exact hnone
    rename_i hspace
    split
    · exact hnone
    obtain ⟨hpos, n', m', hsound, harmed'⟩ := h.sendChunk harmed (not_not.1 hstate) hspace hdata now
      (allocate memory).1
    have hqueued : (tcpQueueSegment now kTcpPshAck (data.take (Tcp.sendChunk s.snd data.length))
        (allocate memory).1 s).1 = (allocate memory).1 := by
      unfold tcpQueueSegment
      split_ifs with hyes
      · exact hyes.symm
      · exact (Bool.eq_false_iff.2 hyes).symm
    dsimp only
    split
    · rename_i hqueue
      rw [hqueue] at hsound harmed' hqueued
      rw [← hqueued] at hsound
      exact ⟨0, n', m', by simpa using hsound, harmed', Nat.zero_le _⟩
    · rename_i hqueue
      rw [hqueue] at hsound harmed' hqueued
      rw [← hqueued] at hsound
      obtain ⟨x, n2, m2, hsound2, harmed2, hx⟩ := ih hsound harmed'
        (data.drop (Tcp.sendChunk s.snd data.length)) (offset + Tcp.sendChunk s.snd data.length)
        (allocate memory).2 (allocate copies).2
      have hle : Tcp.sendChunk s.snd data.length ≤ data.length := by
        unfold Tcp.sendChunk
        omega
      rw [length_drop] at hx
      refine ⟨Tcp.sendChunk s.snd data.length + x, n2, m2, ?_, harmed2, by omega⟩
      rw [take_add, map_append, ← append_assoc]
      exact hsound2

variable {s' : Socket} {now : Nat}

section

variable (h : Sound isn cells u n m s)

include h

/-- What a send adds is told by how far the end of the queue has moved. -/
theorem Sound.queuedBytes {cells' : List Cell} {n' m' x : Nat} {data : List UInt8}
    (h' : Sound isn (cells ++ (data.take x).map .byte) u n' m' s')
    (hx : x ≤ data.length)
    (hcells : cells' = cells ++ (data.take (s'.snd.sendSeq - s.snd.sendSeq).toNat).map .byte) :
    cells' = cells ++ (data.take x).map .byte := by
  obtain ⟨hunacked, hnext, hhighest⟩ := h.sending.order
  have hroom := h'.sending.room_lt
  have hlength : (cells ++ (data.take x).map Cell.byte).length = cells.length + x := by
    rw [length_append, length_map, length_take, Nat.min_eq_left hx]
  rw [hcells, h'.sending.sendSeq, h.sending.sendSeq, hlength, toNat_seqOf_sub (by omega) (by omega)]
  congr 4
  omega

/-! ## Closing -/

/-- Our side of the close: the FIN joins the queue, if there is memory for it. -/
theorem Sound.startClose (harmed : Armed s) (now : Nat)
    (allocated : Bool) : ∃ added, (added = [] ∨ added = [.control]) ∧
      (∃ n' m', Sound isn (cells ++ added) u n' m' (tcpStartClose now allocated s)) ∧
      Armed (tcpStartClose now allocated s) := by
  unfold tcpStartClose
  split
  · exact ⟨[], .inl rfl, ⟨n, m, by rw [append_nil]; exact h⟩, harmed⟩
  rename_i hguard
  simp only [Bool.or_eq_true, Bool.not_eq_true', not_or, Bool.not_eq_false,
    decide_eq_true_eq] at hguard
  obtain ⟨hnoFin, hstate⟩ := hguard
  have hnoFin : s.snd.finSent = false := Bool.eq_false_iff.2 hnoFin
  have hopen : ¬ s.state = .closed := by
    intro hclosed
    rw [hclosed] at hstate
    simp at hstate
  have htimed : s.state.timed := by
    rcases hstate with (hs | hs) | hs <;> rw [hs] <;> rfl
  have hroom := h.sending.room
  rw [hnoFin] at hroom
  obtain ⟨hfins, hnoAck⟩ := h.sending.noFin hnoFin
  generalize hnew : (if s.state = .closeWait then TcpState.lastAck else TcpState.finWait1) = state
  have hkind : state = .lastAck ∨ state = .finWait1 := by
    rw [← hnew]
    split
    · exact .inl rfl
    · exact .inr rfl
  have hclosing : Sound isn cells u n m
      { s with state := state, snd := { s.snd with finSent := true } } := by
    refine ⟨⟨{ h.sending with
        room := ?_, backlog := fun _ => h.sending.backlog hopen, gone := ?_
        finQueued := fun _ _ _ => rfl, finAcked := ?_ }, h.wire⟩,
      { h.fit with syn := ?_, synSent := ?_, finSent := ?_ }⟩
    · simp only [Bool.false_eq_true, if_false] at hroom
      omega
    · intro hclosed
      rcases hkind with hs | hs <;> rw [hs] at hclosed <;> cases hclosed
    · intro hacked
      rw [hnoAck] at hacked
      cases hacked
    · intro hopening
      rcases hkind with hs | hs <;> rw [hs] at hopening <;> cases hopening
    · intro hsyn
      rcases hkind with hs | hs <;> rw [hs] at hsyn <;> cases hsyn
    · intro _
      rcases hkind with hs | hs <;> simp [hs, TcpState.opening]
  have hqueue := hclosing.queueSegment
    (fun _ => harmed htimed) (by rcases hkind with hs | hs <;> rw [hs] <;> rfl) kTcpFinAck []
      (.inr rfl)
    (by
      change cells.length + 1 ≤ u + kTcpSendBufferCap + 1
      simp only [Bool.false_eq_true, if_false] at hroom
      omega)
    (Nat.zero_le _) hfins hnoAck (fun _ => rfl) now allocated
  obtain ⟨n', m', hsound, harmed'⟩ := hqueue
  cases allocated with
  | true => exact ⟨[.control], .inr rfl, ⟨n', m', hsound⟩, harmed'⟩
  | false =>
    exact ⟨[], .inl rfl, ⟨n', m', by rw [append_nil]; exact hsound⟩, harmed'⟩

/-- A control cell is told by the end of the queue as well. -/
theorem Sound.queuedControl {added cells' : List Cell} {n' m' : Nat}
    (h' : Sound isn (cells ++ added) u n' m' s')
    (hadded : added = [] ∨ added = [.control])
    (hcells : cells' = cells ++ if s'.snd.sendSeq = s.snd.sendSeq then [] else [.control]) :
    cells' = cells ++ added := by
  rw [hcells, h'.sending.sendSeq, h.sending.sendSeq]
  rcases hadded with rfl | rfl
  · simp
  · rw [if_neg]
    rw [length_append, length_singleton, seqOf_inj (by omega) (by omega)]
    omega

end

/-! ## Reading -/

theorem Steady.replies (h : Steady isn cells s) (hreplies : Replies s s') :
    Steady isn cells s' := by
  obtain ⟨u, n, m, hsound, harmed⟩ := h
  exact ⟨u, n, m, hsound.replies hreplies,
    harmed.congr hreplies.receives.state hreplies.receives.snd⟩

theorem Steady.sysRecv (h : Steady isn cells s) (mayWait : Bool) (length writable : Nat) :
    Steady isn cells (sysRecv mayWait length writable s).2.2 := by
  obtain ⟨u, n, m, hsound, harmed⟩ := h
  have hsame : Steady isn cells s := ⟨u, n, m, hsound, harmed⟩
  unfold Tcp.sysRecv
  split
  · exact ⟨u, n, m, hsound.sends rfl rfl hsound.wire, harmed⟩
  split
  · exact hsame
  split
  · exact hsame
  split
  · unfold Tcp.recvQueuedData
    split
    · exact ⟨u, n, m, hsound.sends rfl rfl hsound.wire, harmed⟩
    · exact hsame.replies (tcpSendWindowUpdate_replies s _)
  split
  · exact hsame
  · exact hsame

/-! ## Runs -/

/-- The connection an event opens: the initial sequence number, and whether the SYN was queued. -/
def Event.opens (s : Socket) : Event → Option (Seq × Bool)
  | connect _ (.remote isn allocated) =>
    if s.error = 0 ∧ ¬ (s.state = .established ∨ s.state.opening = true)
    then some (isn, allocated) else none
  | _ => none

/-- The cells an event adds: for a send, as many bytes of the data it was given as the end of the
queue has moved; for a shutdown or close, the FIN if it has moved. -/
def Event.adds (s s' : Socket) : Event → List Cell
  | send _ data _ _ => (data.take (s'.snd.sendSeq - s.snd.sendSeq).toNat).map .byte
  | resumeSend _ _ data _ _ => (data.take (s'.snd.sendSeq - s.snd.sendSeq).toNat).map .byte
  | shutdown _ _ => if s'.snd.sendSeq = s.snd.sendSeq then [] else [.control]
  | close _ _ => if s'.snd.sendSeq = s.snd.sendSeq then [] else [.control]
  | _ => []

/-- The states of a remote TCP socket, with the initial sequence number of its connection and what
each sequence number from there on stands for.  `ok` holds of every event and the state it
meets. -/
inductive SendReached (ok : Socket → Event → Prop) : Seq → List Cell → Socket → Prop
  | passive (now : Nat) (isn : Seq) (allocated : Bool) (seg : TcpSegmentInfo) :
      SendReached ok isn (if allocated then [.control] else []) (passiveOpen now isn allocated seg)
  | active (now : Nat) (mayWait : Bool) (isn : Seq) (allocated : Bool) (s : Socket)
      (hfresh : s.snd = {} ∧ s.state = .closed ∧ s.error = 0 ∧ s.wire = []) :
      SendReached ok isn (if allocated then [.control] else [])
        (sysConnect now mayWait (.remote isn allocated) s).2
  | event {isn : Seq} {cells : List Cell} {s s' : Socket} (hreached : SendReached ok isn cells s)
      (now : Nat) (e : Event) (hok : ok s e) (hrun : e.run now s = some s')
      (hopens : e.opens s = none) : SendReached ok isn (cells ++ e.adds s s') s'
  | reopen {isn isn' : Seq} {cells : List Cell} {s s' : Socket} {allocated : Bool}
      (hreached : SendReached ok isn cells s) (now : Nat) (e : Event) (hok : ok s e)
      (hrun : e.run now s = some s') (hopens : e.opens s = some (isn', allocated)) :
      SendReached ok isn' (if allocated then [.control] else []) s'

/-- `sys_connect` opens a connection only if nothing is queued for an earlier one. -/
def OpensEmpty (s : Socket) (e : Event) : Prop := (e.opens s).isSome → s.snd.queue = []

section

variable (h : Steady isn cells s)

include h

theorem Steady.sendLoop (now : Nat) (mayWait : Bool) (fuel : Nat)
    (data : List UInt8) (offset : Nat) (memory copies : List Bool) :
    Steady isn (cells ++ (data.take ((Tcp.sendLoop now mayWait fuel data offset memory copies
        s).2.snd.sendSeq - s.snd.sendSeq).toNat).map .byte)
      (sendLoop now mayWait fuel data offset memory copies s).2 := by
  obtain ⟨u, n, m, hsound, harmed⟩ := h
  obtain ⟨x, n', m', hsent, harmed', hx⟩ :=
    hsound.sendLoop harmed now mayWait fuel data offset memory copies
  rw [hsound.queuedBytes hsent hx rfl]
  exact ⟨u, n', m', hsent, harmed'⟩

theorem Steady.sysSend (now : Nat) (mayWait : Bool) (data : List UInt8)
    (memory copies : List Bool) :
    Steady isn (cells ++ (data.take ((Tcp.sysSend now mayWait data memory copies
        s).2.snd.sendSeq - s.snd.sendSeq).toNat).map .byte)
      (sysSend now mayWait data memory copies s).2 := by
  have hnone : Steady isn (cells ++ (data.take (s.snd.sendSeq - s.snd.sendSeq).toNat).map .byte)
      s := by
    simpa using h
  unfold Tcp.sysSend
  split
  · exact hnone
  split
  · exact hnone
  split
  · exact hnone
  · exact h.sendLoop now mayWait _ data 0 memory copies

theorem Steady.startClose (now : Nat) (allocated : Bool) :
    Steady isn (cells ++ if (tcpStartClose now allocated s).snd.sendSeq = s.snd.sendSeq then []
        else [.control]) (tcpStartClose now allocated s) := by
  obtain ⟨u, n, m, hsound, harmed⟩ := h
  obtain ⟨added, hadded, ⟨n', m', hclosed⟩, harmed'⟩ := hsound.startClose harmed now allocated
  rw [hsound.queuedControl hclosed hadded rfl]
  exact ⟨u, n', m', hclosed, harmed'⟩

/-- Changes to fields outside the send side. -/
theorem Steady.sends (hstate : s'.state = s.state)
    (hsnd : s'.snd = s.snd) (hwire : s'.wire = s.wire) : Steady isn cells s' := by
  obtain ⟨u, n, m, hsound, harmed⟩ := h
  refine ⟨u, n, m, hsound.sends hstate hsnd ?_, harmed.congr hstate hsnd⟩
  unfold Wired
  rw [hwire]
  exact hsound.wire

theorem Steady.destroySocketObject {hardLinger allocated : Bool}
    (hrun : destroySocketObject now hardLinger allocated s = some s') :
    Steady isn (cells ++ if s'.snd.sendSeq = s.snd.sendSeq then [] else [.control]) s' := by
  unfold Tcp.destroySocketObject tcpBeginOrphan at hrun
  split at hrun
  · cases hrun
  split at hrun
  · split at hrun
    · cases hrun
    · cases hrun
      exact (h.startClose now allocated).sends rfl rfl rfl
  · cases hrun

theorem Steady.icmp (tcpSeq : Seq) (error : Nat) :
    Steady isn cells (socketProcessIcmpError tcpSeq error s) := by
  unfold socketProcessIcmpError
  split
  · exact h
  split
  · exact h
  split
  · obtain ⟨u, n, m, hsound, -⟩ := h
    exact hsound.abort_steady error
  · exact h.sends rfl rfl rfl

/-- A `sys_connect` that opens no connection. -/
theorem Steady.connect {mayWait : Bool} {dest : Destination}
    (hopens : (Event.connect mayWait dest).opens s = none) :
    Steady isn cells (sysConnect now mayWait dest s).2 := by
  unfold sysConnect
  split
  · exact h.sends rfl rfl rfl
  split
  · exact h
  split
  · exact h
  rename_i herror hest hopening
  cases dest with
  | unreachable error => exact h
  | loopback accepts =>
    dsimp only
    split
    · exact h.sends rfl rfl rfl
    · exact h
  | remote isn' allocated =>
    rw [Event.opens, if_pos] at hopens
    · cases hopens
    · rw [TcpState.opening_iff]
      exact ⟨not_not.1 herror, not_or.2 ⟨hest, hopening⟩⟩

end

/-- An event that opens no connection. -/
theorem Steady.event {s : Socket} {e : Event} (h : Steady isn cells s)
    (hrun : e.run now s = some s') (hopens : e.opens s = none) :
    Steady isn (cells ++ e.adds s s') s' := by
  have hstart : Steady isn cells { s with wire := [] } := by
    obtain ⟨u, n, m, hsound, harmed⟩ := h
    exact ⟨u, n, m, hsound.sends rfl rfl (by intro x hx; cases hx), harmed⟩
  have hnothing : Steady isn cells s' → Steady isn (cells ++ []) s' := by
    rw [append_nil]
    exact id
  cases e with
  | segment memory seg =>
    cases hrun
    exact hnothing (hstart.processTcpSegment rfl now memory seg)
  | recv mayWait length writable =>
    cases hrun
    exact hnothing (hstart.sysRecv mayWait length writable)
  | send mayWait data memory copies =>
    cases hrun
    exact hstart.sysSend now mayWait data memory copies
  | resumeSend mayWait offset data memory copies =>
    cases hrun
    exact hstart.sendLoop now mayWait _ data offset memory copies
  | shutdown how allocated =>
    cases hrun
    cases how with
    | read =>
      change Steady isn (cells ++ if s.snd.sendSeq = s.snd.sendSeq then [] else [.control]) _
      rw [if_pos rfl]
      exact hnothing (hstart.sends rfl rfl rfl)
    | write =>
      have hclosing : Steady isn cells { s with wire := [], writeClosed := true } :=
        hstart.sends rfl rfl rfl
      exact hclosing.startClose now allocated
    | both =>
      have hclosing : Steady isn cells
          { s with wire := [], readClosed := true, writeClosed := true } :=
        hstart.sends rfl rfl rfl
      exact hclosing.startClose now allocated
  | close hardLinger allocated => exact hstart.destroySocketObject hrun
  | tick =>
    refine hnothing ?_
    change socketTcpTick now { s with wire := [] } = some s' at hrun
    unfold socketTcpTick at hrun
    dsimp only at hrun
    split at hrun
    · cases hrun
    · cases hrun
      exact hstart.tcpTimers now
  | icmp tcpSeq error =>
    cases hrun
    exact hnothing (hstart.icmp tcpSeq error)
  | takeError =>
    cases hrun
    exact hnothing (hstart.sends rfl rfl rfl)
  | connect mayWait dest =>
    cases hrun
    exact hnothing (hstart.connect hopens)

/-- An event that opens a connection on an empty queue. -/
theorem steady_reopen {isn' : Seq} {allocated : Bool} {s : Socket} {e : Event}
    (hqueue : s.snd.queue = []) (hrun : e.run now s = some s')
    (hopens : e.opens s = some (isn', allocated)) :
    Steady isn' (if allocated then [.control] else []) s' := by
  cases e with
  | connect mayWait dest =>
    cases dest with
    | remote isn'' allocated' =>
      rw [Event.opens] at hopens
      split at hopens
      · rename_i hguard
        cases hopens
        cases hrun
        exact steady_connect now mayWait isn' allocated hqueue rfl hguard.1 hguard.2
      · cases hopens
    | _ => cases hopens
  | _ => cases hopens

theorem SendReached.steady (h : SendReached OpensEmpty isn cells s) : Steady isn cells s := by
  induction h with
  | passive now isn allocated seg => exact steady_passiveOpen now isn allocated seg
  | active now mayWait isn allocated s hfresh =>
    obtain ⟨hsnd, hstate, herror, hwire⟩ := hfresh
    refine steady_connect now mayWait isn allocated (by rw [hsnd]) hwire herror ?_
    simp [hstate, TcpState.opening]
  | event _ now e _ hrun hopens ih => exact ih.event hrun hopens
  | reopen _ now e hok hrun hopens _ => exact steady_reopen (hok (by rw [hopens]; rfl)) hrun hopens

/-! ## The result -/

/-- What a correct send side looks like, in the variables of the socket. -/
structure SendCorrect (isn : Seq) (cells : List Cell) (s : Socket) : Prop where
  contiguous : s.snd.queue.IsChain fun a b => b.seq = tcpSegmentEnd a
  ends : ∀ seg ∈ s.snd.queue.getLast?, tcpSegmentEnd seg = s.snd.sendSeq
  ordered : seqLe s.snd.sendUnacked s.snd.sendNext = true ∧
    seqLe s.snd.sendNext s.snd.sendMax = true ∧ seqLe s.snd.sendMax s.snd.sendSeq = true ∧
    (s.snd.sendSeq - s.snd.sendUnacked).toNat < 2 ^ 31
  head : ∀ seg ∈ s.snd.queue.head?, seqLe seg.seq s.snd.sendUnacked = true ∧
    seqLt s.snd.sendUnacked (tcpSegmentEnd seg) = true
  bytes : ∀ x ∈ s.wire, x.data ≠ [] → ∃ p, x.seq = seqOf (isn.toNat + p) ∧
    x.data.map .byte <+: cells.drop p ∧ cells.length < p + 2 ^ 31
  window : ∀ x ∈ s.wire, x.data ≠ [] →
    seqGt (x.seq + BitVec.ofNat 32 x.data.length) x.highest = true →
      (x.seq + BitVec.ofNat 32 x.data.length - x.unacked).toNat ≤ x.peerWindow ∨
        x.unacked = x.highest
  timer : s.state ≠ .closed → s.state ≠ .listen → s.state ≠ .timeWait → s.snd.queue ≠ [] →
    s.snd.rtxDeadline ≠ 0

theorem covers_isChain {p q : Nat} {segs : List TcpSendSegment} (h : Covers isn p segs q) :
    (segs.IsChain fun a b => b.seq = tcpSegmentEnd a) ∧
      ∀ seg ∈ segs.getLast?, tcpSegmentEnd seg = seqOf (isn.toNat + q) := by
  induction segs generalizing p with
  | nil => exact ⟨.nil, by simp⟩
  | cons seg rest ih =>
    obtain ⟨hchain, hlast⟩ := ih h.2.2.2
    have hend : tcpSegmentEnd seg = seqOf (isn.toNat + (p + tcpSegmentSpan seg)) := h.head_end
    cases rest with
    | nil =>
      have hq : p + tcpSegmentSpan seg = q := h.2.2.2
      refine ⟨.singleton seg, fun x hx => ?_⟩
      rw [getLast?_singleton, Option.mem_def, Option.some.injEq] at hx
      rw [← hx, hend, hq]
    | cons next tail =>
      refine ⟨.cons_cons (h.2.2.2.1.trans hend.symm) hchain, fun x hx => hlast x ?_⟩
      rwa [getLast?_cons_cons] at hx

theorem Steady.correct (h : Steady isn cells s) : SendCorrect isn cells s := by
  obtain ⟨u, n, m, hsound, harmed⟩ := h
  obtain ⟨hunacked, hnext, hhighest⟩ := hsound.sending.order
  have hroom := hsound.sending.room_lt
  have hchain : ∃ p, Covers isn p s.snd.queue cells.length ∨ s.snd.queue = [] := by
    by_cases hclosed : s.state = .closed
    · exact ⟨0, .inr (hsound.sending.gone hclosed)⟩
    · obtain ⟨k, hk⟩ := hsound.sending.backlog hclosed
      exact ⟨k, .inl hk.pieces.chain⟩
  have hqueue : (s.snd.queue.IsChain fun a b => b.seq = tcpSegmentEnd a) ∧
      ∀ seg ∈ s.snd.queue.getLast?, tcpSegmentEnd seg = seqOf (isn.toNat + cells.length) := by
    obtain ⟨p, hcovers | hnil⟩ := hchain
    · exact covers_isChain hcovers
    · rw [hnil]
      exact ⟨.nil, by simp⟩
  refine ⟨hqueue.1, fun seg hseg => (hqueue.2 seg hseg).trans hsound.sending.sendSeq.symm, ?_, ?_,
    ?_, fun x hx => (hsound.wire x hx).window, ?_⟩
  · rw [hsound.sending.unacked, hsound.sending.next, hsound.sending.highest,
      hsound.sending.sendSeq, seqLe_seqOf (by omega) (by omega), seqLe_seqOf (by omega) (by omega),
      seqLe_seqOf (by omega) (by omega), toNat_seqOf_sub (by omega) (by omega)]
    simp only [decide_eq_true_eq]
    omega
  · intro seg hseg
    obtain ⟨rest, hcons⟩ := head?_eq_some_iff.1 hseg
    obtain ⟨-, k, hk⟩ := hsound.sending.first hcons
    have hlow := hk.low
    have hhead := hk.head seg rest rfl
    have hnear := hk.near (cons_ne_nil _ _)
    have hcovers := hk.pieces.chain
    have hle := hcovers.head_le
    have hend : tcpSegmentEnd seg = seqOf (isn.toNat + (k + tcpSegmentSpan seg)) := hcovers.head_end
    rw [hcovers.1, hend, hsound.sending.unacked, seqLe_seqOf (by omega) (by omega),
      seqLt_seqOf (by omega) (by omega)]
    simp only [decide_eq_true_eq]
    omega
  · intro x hx hdata
    obtain ⟨p, hseq, hrun, hnear⟩ := (hsound.wire x hx).content hdata
    exact ⟨p, hseq, hrun, by omega⟩
  · intro h1 h2 h3
    refine harmed ?_
    cases hs : s.state <;> simp_all [TcpState.timed, TcpState.sends, TcpState.opening]

/-- In every state of a remote TCP socket whose connections are opened on an empty send queue: the
queue is contiguous and ends at the next sequence number, the sequence variables are in order, the
first segment holds the oldest unacknowledged number, every byte sent is the one queued for its
number, new data stays in the window unless nothing is in flight, and the timer runs while
something is queued. -/
theorem send_queue_correct (h : SendReached OpensEmpty isn cells s) : SendCorrect isn cells s :=
  h.steady.correct

/-! ### A run that sends, and one that connects twice -/

/-- The end of the handshake of a passive open. -/
def sampleAck : TcpSegmentInfo := ⟨8, 101, 1000, kTcpAck, [], {}, short_nil⟩

/-- The peer's FIN. -/
def sampleFin : TcpSegmentInfo := ⟨8, 101, 1000, kTcpFinAck, [], {}, short_nil⟩

/-- A connection that is accepted and sends three bytes. -/
theorem sampleSending :
    ∃ s, SendReached OpensEmpty 100 ([.control] ++ [] ++ [.byte 1, .byte 2, .byte 3]) s ∧
      s.snd.queue ≠ [] ∧ s.wire ≠ [] ∧ s.state = .established := by
  have hopen : SendReached OpensEmpty 100 [.control]
      (passiveOpen 5 100 true ⟨7, 0, 1000, kTcpSyn, [], {}, by decide⟩) := .passive 5 100 true _
  have hacked := hopen.event 6 (.segment [] sampleAck) (fun h => by cases h) rfl rfl
  have hsent := hacked.event 7 (.send false [1, 2, 3] [] []) (fun h => by cases h) rfl rfl
  exact ⟨_, hsent, by decide +kernel, by decide +kernel, by decide +kernel⟩

theorem send_queue_correct_sample :
    ∃ s, SendCorrect 100 ([.control] ++ [] ++ [.byte 1, .byte 2, .byte 3]) s ∧
      s.snd.queue ≠ [] ∧ s.wire ≠ [] := by
  obtain ⟨s, hreached, hqueue, hwire, -⟩ := sampleSending
  exact ⟨s, send_queue_correct hreached, hqueue, hwire⟩

/-- The peer closes, the application sends a byte that is not acknowledged, and connects the
socket again: the SYN waits behind the byte, and no timer runs. -/
theorem connect_stalls : ¬ ∀ (isn : Seq) (cells : List Cell) (s : Socket),
      SendReached (fun _ _ => True) isn cells s → SendCorrect isn cells s := by
  intro hall
  have hopen : SendReached (fun _ _ => True) 100 [.control]
      (passiveOpen 5 100 true ⟨7, 0, 1000, kTcpSyn, [], {}, by decide⟩) := .passive 5 100 true _
  have hacked := hopen.event 6 (.segment [] sampleAck) trivial rfl rfl
  have hfin := hacked.event 7 (.segment [] sampleFin) trivial rfl rfl
  have hsent := hfin.event 8 (.send false [1] [] []) trivial rfl rfl
  have hagain := hsent.reopen 9 (.connect false (.remote 7000 true)) trivial rfl
    (by decide +kernel : _ = some ((7000 : Seq), true))
  refine (hall _ _ _ hagain).timer ?_ ?_ ?_ ?_ ?_
  · decide +kernel
  · decide +kernel
  · decide +kernel
  · decide +kernel
  · decide +kernel

end InstantOS.Tcp

import InstantOS.Net.TcpSend

/-!
# Queueing, acknowledging and timing out

The invariant of the send side between the functions of one event, and what each function of the
state machine does to it.  `Sound` holds the numbers, the queue, the wire and what the connection
state says about them; `Armed` says that the timer runs when it must.  An acknowledgement of
everything sent stops the timer; the `tcpOutput` at the end of the event starts it again.
-/

namespace InstantOS.Tcp

open Base

variable {isn : Seq} {cells : List Cell} {k c u n m : Nat} {t : Sender} {s : Socket}

/-- What the state of the connection says about the send side. -/
structure Fit (isn : Seq) (cells : List Cell) (u m : Nat) (state : TcpState) (t : Sender) :
    Prop where
  syn : state.opening = true → ∀ seg ∈ t.queue, seg.flags.syn = true
  synSent : state = .synSent → m = cells.length ∧ t.inRecovery = false
  finSent : t.finSent = true → state ≠ .established ∧ state ≠ .closeWait ∧ state.opening = false
  recovering : t.inRecovery = true → ∃ r, t.recover = seqOf (isn.toNat + r) ∧ u < r ∧ r ≤ m

structure Sound (isn : Seq) (cells : List Cell) (u n m : Nat) (s : Socket) : Prop
    extends Live isn cells u n m s where
  fit : Fit isn cells u m s.state s.snd

/-- The states in which the retransmission timer matters: not `Closed`, `Listen`, `TimeWait`. -/
def TcpState.timed (state : TcpState) : Bool := state.sends || state.opening

def Armed (s : Socket) : Prop :=
  s.state.timed = true → s.snd.queue ≠ [] → s.snd.rtxDeadline ≠ 0

/-- The timer runs, or the next `tcpOutput` begins with the first segment of the queue. -/
def Pauses (u n : Nat) (s : Socket) : Prop :=
  s.state.timed = true → s.snd.rtxDeadline = 0 → s.snd.queue = [] ∨ n = u

theorem Armed.congr {s' : Socket} (h : Armed s) (hstate : s'.state = s.state)
    (hsnd : s'.snd = s.snd) : Armed s' := by
  unfold Armed
  rw [hstate, hsnd]
  exact h

theorem Armed.pauses (h : Armed s) : Pauses u n s := by
  intro htimed hstopped
  by_contra hne
  exact h htimed (fun hnil => hne (.inl hnil)) hstopped

theorem not_closed_of_timed (h : s.state.timed) : ¬ s.state = .closed :=
  TcpState.not_closed (Bool.or_eq_true_iff.1 h)

/-- Changes to the fields the queue and its numbers do not depend on. -/
theorem Sound.congr {t' : Sender} (h : Sound isn cells u n m s) (hcore : t'.core = s.snd.core)
    (hrto : 0 < t'.rtoMs) (hin : t'.inRecovery = s.snd.inRecovery)
    (hrecover : t'.recover = s.snd.recover) : Sound isn cells u n m (s.setSnd t') := by
  have hqueue : t'.queue = s.snd.queue := (congrArg Sender.queue hcore :)
  have hfin : t'.finSent = s.snd.finSent := (congrArg Sender.finSent hcore :)
  refine ⟨⟨h.sending.congr hcore hrto, h.wire⟩, ⟨?_, ?_, ?_, ?_⟩⟩
  · intro hopening
    rw [setSnd_snd, hqueue]
    exact h.fit.syn hopening
  · intro hsyn
    rw [setSnd_snd, hin]
    exact h.fit.synSent hsyn
  · rw [setSnd_snd, hfin]
    exact h.fit.finSent
  · rw [setSnd_snd, hin, hrecover]
    exact h.fit.recovering

theorem Fit.resent {state : TcpState} {t' : Sender} {m' : Nat} (h : Fit isn cells u m state t)
    (hresent : Resent t.queue t'.queue) (hm : m ≤ m') (hlength : m' ≤ cells.length)
    (hfin : t'.finSent = t.finSent) (hin : t'.inRecovery = t.inRecovery)
    (hrecover : t'.recover = t.recover) : Fit isn cells u m' state t' := by
  refine ⟨?_, ?_, ?_, ?_⟩
  · intro hopening seg' hseg'
    obtain ⟨seg, hseg, hflags⟩ := hresent.flags hseg'
    rw [hflags]
    exact h.syn hopening seg hseg
  · intro hsyn
    obtain ⟨hall, hno⟩ := h.synSent hsyn
    exact ⟨by omega, hin.trans hno⟩
  · rw [hfin]
    exact h.finSent
  · rw [hin, hrecover]
    intro hrecovering
    obtain ⟨r, hr, hur, hrm⟩ := h.recovering hrecovering
    exact ⟨r, hr, hur, by omega⟩

/-! ## Sending -/

section

variable (h : Sound isn cells u n m s)

include h

theorem Sound.sends {s' : Socket} (hstate : s'.state = s.state)
    (hsnd : s'.snd = s.snd) (hwire : Wired isn cells u s') : Sound isn cells u n m s' :=
  ⟨⟨by rw [hsnd, hstate]; exact h.sending, hwire⟩, by rw [hsnd, hstate]; exact h.fit⟩

theorem Sound.control (flags : Flags) : Sound isn cells u n m (tcpSendControl flags s) :=
  h.sends rfl rfl (h.wire.control flags)

theorem Sound.transmit (seq : Seq) (flags : Flags) (again : Bool) :
    Sound isn cells u n m (tcpTransmit seq flags [] again s) :=
  h.sends rfl rfl (h.wire.transmit seq flags again)

theorem Sound.sendHead (now : Nat) :
    Sound isn cells u n m (sendHead now s) ∧
      (Tcp.sendHead now s).snd = { s.snd with queue := (Tcp.sendHead now s).snd.queue } ∧
      Resent s.snd.queue (Tcp.sendHead now s).snd.queue := by
  obtain ⟨hlive, hresent, hsnd⟩ := h.toLive.sendHead now
  refine ⟨⟨hlive, ?_⟩, hsnd, hresent⟩
  rw [(sendHead_sends now s).state]
  exact h.fit.resent hresent le_rfl h.sending.highest_le (by rw [hsnd]) (by rw [hsnd])
    (by rw [hsnd])

/-- `tcpOutput` at the end of an event. -/
theorem Sound.output (hpauses : Pauses u n s) (now : Nat) :
    ∃ n' m', Sound isn cells u n' m' (tcpOutput now s) ∧ Armed (tcpOutput now s) := by
  obtain ⟨n', m', hout⟩ := h.toLive.output now h.fit.syn
  have hsends := tcpOutput_sends now s
  refine ⟨n', m', ⟨hout.live, ?_⟩, fun htimed hne => ?_⟩
  · rw [hsends.state]
    exact h.fit.resent hout.resent hout.highest hout.live.sending.highest_le hout.finSent
      hout.inRecovery hout.recover
  · rw [hsends.state] at htimed
    have hne' : s.snd.queue ≠ [] := fun hnil => hne (hout.resent.eq_nil.2 hnil)
    by_cases hstopped : s.snd.rtxDeadline = 0
    · have hfirst := (hpauses htimed hstopped).resolve_left hne'
      obtain ⟨k, hk⟩ := h.sending.backlog (not_closed_of_timed htimed)
      obtain ⟨hunacked, hnext, hhighest⟩ := h.sending.order
      have hnotAll : u ≠ cells.length := fun hall => hne' ((hk.nil_iff hunacked hnext).2 hall)
      rcases Bool.or_eq_true_iff.1 htimed with hstate | hstate
      · exact hout.armed hstate (by omega) hne'
      · exact (hout.opened hstate hfirst hne').1
    · exact hout.timer hstopped

end

/-! ## Queueing -/

theorem Honest.mono {cells' : List Cell} {x : Transmission} (h : Honest isn cells u x)
    (hcells : cells <+: cells') : Honest isn cells' u x := by
  refine ⟨fun hdata => ?_, h.window⟩
  obtain ⟨p, hseq, hrun, hnear⟩ := h.content hdata
  exact ⟨p, hseq, hrun.trans (hcells.drop p), hnear⟩

/-- A segment joins the end of the queue. -/
theorem Live.enqueue (h : Live isn cells u n m s) (hopen : ¬ s.state = .closed)
    (seg : TcpSendSegment) (hseq : seg.seq = s.snd.sendSeq) (hpos : 0 < tcpSegmentSpan seg)
    (hroom : cells.length + tcpSegmentSpan seg ≤
      u + kTcpSendBufferCap + if s.snd.finSent then 1 else 0)
    (hshort : tcpSegmentSpan seg ≤ kTcpSendBufferCap)
    (hfins : ∀ x ∈ s.snd.queue, x.flags.fin = false) (hacked : s.snd.finAcked = false)
    (hfin : seg.flags.fin → s.snd.finSent) :
    Live isn (cells ++ segCells seg) u n m (s.setSnd { s.snd with
      queue := s.snd.queue ++ [seg]
      sendSeq := s.snd.sendSeq + BitVec.ofNat 32 (tcpSegmentSpan seg) }) := by
  have hsending := h.sending
  have hhighest := hsending.highest_le
  have hlength : (cells ++ segCells seg).length = cells.length + tcpSegmentSpan seg := by
    rw [List.length_append, length_segCells]
  obtain ⟨k, hk⟩ := hsending.backlog hopen
  refine ⟨⟨⟨?_, hsending.unacked, hsending.next, hsending.highest, hsending.unacked_le,
    hsending.next_le, by omega, ?_, hsending.rto, hsending.mss⟩,
    fun _ => ⟨k, ?_, hk.low, ?_, ?_, ?_⟩,
    fun hclosed => absurd hclosed hopen, ?_, ?_⟩,
    fun x hx => (h.wire x hx).mono (List.prefix_append _ _)⟩
  · change s.snd.sendSeq + BitVec.ofNat 32 (tcpSegmentSpan seg) = _
    rw [hsending.sendSeq, hlength, ← seqOf_add, Nat.add_assoc]
  · rw [hlength]
    exact hroom
  · rw [hlength]
    exact hk.pieces.snoc ⟨hseq.trans hsending.sendSeq, hpos, hshort, rfl⟩
  · intro x rest hqueue
    cases hq : s.snd.queue with
    | nil =>
      rw [hq] at hqueue
      obtain ⟨rfl, -⟩ := List.cons.inj hqueue
      have hall := (hk.nil_iff hsending.unacked_le hsending.next_le).1 hq
      have hchain := hk.pieces.chain
      rw [hq] at hchain
      have : k = cells.length := hchain
      omega
    | cons y tail =>
      rw [hq] at hqueue
      obtain ⟨rfl, -⟩ := List.cons.inj hqueue
      exact hk.head y tail hq
  · change (cells ++ segCells seg).drop k = (s.snd.queue ++ [seg]).flatMap segCells
    have hle := hk.pieces.chain.le
    rw [List.drop_append_of_le_length hle, hk.contents, List.flatMap_append, List.flatMap_singleton]
  · refine List.pairwise_append.2 ⟨hk.finLast, List.pairwise_singleton _ _, ?_⟩
    exact fun x hx _ _ => hfins x hx
  · intro x hx hflag
    rcases List.mem_append.1 hx with hx | hx
    · rw [hfins x hx] at hflag
      cases hflag
    · rw [List.mem_singleton.1 hx] at hflag
      exact hfin hflag
  · intro hyes
    change s.snd.finAcked = true at hyes
    rw [hacked] at hyes
    cases hyes

/-- `tcpQueueSegment`, past the handshake. -/
theorem Sound.queueSegment (h : Sound isn cells u n m s) (harmed : Armed s)
    (hsends : s.state.sends) (flags : Flags) (data : List UInt8) (hpos : data ≠ [] ∨ flags.fin)
    (hroom : cells.length + tcpSegmentSpan { seq := s.snd.sendSeq, flags := flags, data := data } ≤
      u + kTcpSendBufferCap + if s.snd.finSent then 1 else 0)
    (hshort : data.length ≤ kTcpSendBufferCap)
    (hfins : ∀ x ∈ s.snd.queue, x.flags.fin = false) (hacked : s.snd.finAcked = false)
    (hfin : flags.fin → s.snd.finSent) (now : Nat) (allocated : Bool) :
    ∃ n' m', Sound isn (if allocated then
          cells ++ segCells { seq := s.snd.sendSeq, flags := flags, data := data } else cells)
        u n' m' (tcpQueueSegment now flags data allocated s).2 ∧
      Armed (tcpQueueSegment now flags data allocated s).2 := by
  cases allocated with
  | false => exact ⟨n, m, h, harmed⟩
  | true =>
    have hopening : s.state.opening = false := by
      cases hs : s.state <;> simp_all [TcpState.sends, TcpState.opening]
    have hopen := TcpState.not_closed (.inl hsends)
    have hspan : 0 < tcpSegmentSpan { seq := s.snd.sendSeq, flags := flags, data := data } ∧
        tcpSegmentSpan { seq := s.snd.sendSeq, flags := flags, data := data } ≤
          kTcpSendBufferCap := by
      unfold tcpSegmentSpan
      dsimp only
      split
      · omega
      rename_i hzero
      have hempty : data = [] := by simpa using hzero
      rw [hpos.resolve_left (not_not.2 hempty), Bool.or_true]
      decide
    have hlive := h.toLive.enqueue hopen
      { seq := s.snd.sendSeq, flags := flags, data := data } rfl hspan.1 hroom hspan.2
      hfins hacked hfin
    have hsound : Sound isn (cells ++ segCells _) u n m _ :=
      ⟨hlive, fun hstate => absurd hstate (Bool.eq_false_iff.1 hopening), fun hsyn => ?_,
        h.fit.finSent, h.fit.recovering⟩
    · refine hsound.output (fun htimed hstopped => .inr ?_) now
      -- the timer is off, so that nothing was queued before
      have hnil : s.snd.queue = [] := by_contra fun hne => harmed htimed hne hstopped
      obtain ⟨k, hk⟩ := h.sending.backlog hopen
      obtain ⟨hunacked, hnext, hhighest⟩ := h.sending.order
      have hall := (hk.nil_iff hunacked hnext).1 hnil
      omega
    · change s.state = .synSent at hsyn
      rw [hsyn] at hopening
      cases hopening

/-! ## Acknowledgements -/

/-- An acknowledgement number that is neither old nor too new is a position in flight. -/
theorem Numbered.ackPosition (h : Numbered isn cells u n m t) {ack : Seq}
    (hgt : seqGt ack t.sendMax = false) (hlt : seqLt ack t.sendUnacked = false) :
    ∃ a, ack = seqOf (isn.toNat + a) ∧ u ≤ a ∧ a ≤ m := by
  obtain ⟨hunacked, hnext, hhighest⟩ := h.order
  have hroom := h.room_lt
  rw [seqLt_eq] at hlt
  have hshort := of_decide_eq_false hlt
  have hack : ack = seqOf (isn.toNat + (u + (ack - t.sendUnacked).toNat)) := by
    rw [← Nat.add_assoc, seqOf_add, ← h.unacked, BitVec.ofNat_toNat, BitVec.setWidth_eq,
      BitVec.add_comm, BitVec.sub_add_cancel]
  refine ⟨_, hack, Nat.le_add_right _ _, ?_⟩
  rw [hack, h.highest, seqGt_seqOf (by omega) (by omega)] at hgt
  have := of_decide_eq_false hgt
  omega

theorem ackAndSample_same (ack : Seq) (now : Nat) (t : Sender) :
    (ackAndSample ack now t).inRecovery = t.inRecovery ∧
      (ackAndSample ack now t).recover = t.recover ∧
      (ackAndSample ack now t).finSent = t.finSent := by
  obtain ⟨x, y, z, heq⟩ := ackAndSample_eq ack now t
  rw [heq]
  exact ⟨rfl, rfl, rfl⟩

theorem ackAndSample_queue (ack : Seq) (now : Nat) (t : Sender) :
    (ackAndSample ack now t).queue.Sublist t.queue := by
  obtain ⟨x, y, z, heq⟩ := ackAndSample_eq ack now t
  rw [heq]
  change (ackQueue ack now t.queue t.finAcked none).1.Sublist t.queue
  rw [ackQueue_queue]
  exact List.dropWhile_sublist _

/-- Nothing with data has been sent yet in this event. -/
def Silent (s : Socket) : Prop := ∀ x ∈ s.wire, x.data = []

theorem Silent.wired (h : Silent s) : Wired isn cells u s :=
  fun x hx => ⟨fun hdata => absurd (h x hx) hdata, fun hdata => absurd (h x hx) hdata⟩

/-- The congestion window after a new acknowledgement; a partial one in recovery sends the next
hole. -/
theorem Live.growWindow (h : Live isn cells u n m s) (hsyn : s.state ≠ .synSent)
    (hopening : s.state.opening → ∀ seg ∈ s.snd.queue, seg.flags.syn)
    (hfin : s.snd.finSent → s.state ≠ .established ∧ s.state ≠ .closeWait ∧ s.state.opening = false)
    (hrecovering : s.snd.inRecovery →
      ∃ r, s.snd.recover = seqOf (isn.toNat + r) ∧ r ≤ m ∧ u ≤ r + 262145) (now acked : Nat) :
    Sound isn cells u n m (growWindow now (seqOf (isn.toNat + u)) acked s) := by
  obtain ⟨hunacked, hnext, hhighest⟩ := h.sending.order
  have hroom := h.sending.room_lt
  by_cases hin : s.snd.inRecovery
  · obtain ⟨r, hr, hrm, hur⟩ := hrecovering hin
    have hpartial : seqLt (seqOf (isn.toNat + u)) s.snd.recover = decide (u < r) := by
      rw [hr, seqLt_seqOf (by omega) (by omega)]
      simp only [decide_eq_decide]
      omega
    rw [Tcp.growWindow, if_pos hin, hpartial]
    split
    · rename_i hlt
      have hsound : Sound isn cells u n m s :=
        ⟨h, hopening, fun hyes => absurd hyes hsyn, hfin,
          fun _ => ⟨r, hr, of_decide_eq_true hlt, hrm⟩⟩
      obtain ⟨hsent, -, -⟩ := hsound.sendHead now
      exact hsent.congr rfl hsent.sending.rto rfl rfl
    · refine ⟨⟨h.sending.congr rfl h.sending.rto, h.wire⟩, ⟨hopening,
        fun hyes => absurd hyes hsyn, hfin, fun hyes => ?_⟩⟩
      cases hyes
  · have hsound : Sound isn cells u n m s :=
      ⟨h, hopening, fun hyes => absurd hyes hsyn, hfin, fun hyes => absurd hyes hin⟩
    rw [Tcp.growWindow, if_neg hin]
    split
    · exact hsound.congr rfl h.sending.rto rfl rfl
    · exact hsound.congr rfl h.sending.rto rfl rfl

section

variable (h : Sound isn cells u n m s) (hsyn : s.state ≠ .synSent)

include h hsyn

theorem Sound.newAck (hsilent : Silent s) {a : Nat} (hu : u ≤ a) (ha : a ≤ m) (now : Nat) :
    Sound isn cells a (max n a) m (processNewAck now (seqOf (isn.toNat + a)) s) ∧
      Pauses a (max n a) (processNewAck now (seqOf (isn.toNat + a)) s) := by
  have hroom := h.sending.room_lt
  have hhighest := h.sending.highest_le
  have hnext := h.sending.next_le
  have hack := h.sending.ack hu ha now
  obtain ⟨hin, hrecover, hfin⟩ := ackAndSample_same (seqOf (isn.toNat + a)) now s.snd
  have hlive : Live isn cells a (max n a) m (s.setSnd
      { ackAndSample (seqOf (isn.toNat + a)) now s.snd with backoff := 0, dupAckCount := 0 }) :=
    ⟨hack.congr rfl hack.rto, Silent.wired hsilent⟩
  have hgrown := hlive.growWindow hsyn
    (fun hstate seg hseg => h.fit.syn hstate seg ((ackAndSample_queue _ _ _).subset hseg))
    (fun hsent => h.fit.finSent (hfin.symm.trans hsent))
    (fun hyes => by
      obtain ⟨r, hr, hur, hrm⟩ := h.fit.recovering (hin.symm.trans hyes)
      exact ⟨r, hrecover.trans hr, hrm, by omega⟩)
    now (seqOf (isn.toNat + a) - s.snd.sendUnacked).toNat
  unfold processNewAck
  refine ⟨hgrown.congr rfl hgrown.sending.rto rfl rfl, fun _ hstopped => .inr ?_⟩
  rw [setSnd_snd] at hstopped
  dsimp only at hstopped
  split at hstopped
  · rename_i hall
    rw [hgrown.sending.unacked, hgrown.sending.highest, seqOf_inj (by omega) (by omega)] at hall
    omega
  · exact absurd hstopped (deadline_ne_zero now hgrown.sending.rto)

/-- The fields that `processSameAck` leaves alone before a retransmission. -/
theorem Sound.duplicate (hflight : u ≠ m) (harmed : Armed s) (now : Nat) :
    Sound isn cells u n m (processDuplicate now s) ∧ Armed (processDuplicate now s) := by
  obtain ⟨hunacked, hnext, -⟩ := h.sending.order
  unfold processDuplicate
  dsimp only
  split
  · exact ⟨h.congr rfl h.sending.rto rfl rfl, harmed⟩
  split
  · -- fast retransmit: recovery lasts until all that is in flight now is acknowledged
    have hrecovering : Sound isn cells u n m (s.setSnd { s.snd with
        dupAckCount := s.snd.dupAckCount + 1
        ssthresh := lossThreshold { s.snd with dupAckCount := s.snd.dupAckCount + 1 }
        recover := s.snd.sendMax, inRecovery := true }) :=
      ⟨⟨h.sending.congr rfl h.sending.rto, h.wire⟩, ⟨h.fit.syn, fun hyes => absurd hyes hsyn,
        h.fit.finSent, fun _ => ⟨m, h.sending.highest, by omega, le_rfl⟩⟩⟩
    obtain ⟨hsent, -, -⟩ := hrecovering.sendHead now
    exact ⟨hsent.congr rfl hsent.sending.rto rfl rfl,
      fun _ _ => deadline_ne_zero now hsent.sending.rto⟩
  · exact ⟨h.congr rfl h.sending.rto rfl rfl, harmed⟩

theorem Sound.sameAck (harmed : Armed s) (now : Nat) (seg : TcpSegmentInfo) (oldWindow : Nat) :
    Sound isn cells u n m (processSameAck now seg oldWindow s) ∧
      Armed (processSameAck now seg oldWindow s) := by
  have hprobe : s.snd.probeAnswered.core = s.snd.core ∧
      s.snd.probeAnswered.rtoMs = s.snd.rtoMs ∧
      s.snd.probeAnswered.inRecovery = s.snd.inRecovery ∧
      s.snd.probeAnswered.recover = s.snd.recover ∧
      s.snd.probeAnswered.rtxDeadline = s.snd.rtxDeadline := by
    unfold Sender.probeAnswered
    split <;> exact ⟨rfl, rfl, rfl, rfl, rfl⟩
  obtain ⟨hcore, hrto, hin, hrecover, hdeadline⟩ := hprobe
  have hqueue : s.snd.probeAnswered.queue = s.snd.queue := (congrArg Sender.queue hcore :)
  have hsound := h.congr hcore (by rw [hrto]; exact h.sending.rto) hin hrecover
  have harmed' : Armed (s.setSnd s.snd.probeAnswered) := by
    intro htimed hne
    rw [setSnd_snd, hdeadline]
    rw [setSnd_snd, hqueue] at hne
    exact harmed htimed hne
  unfold processSameAck
  dsimp only
  split
  · rename_i hdup
    refine hsound.duplicate hsyn ?_ harmed' now
    intro heq
    have : s.snd.probeAnswered.sendUnacked = s.snd.probeAnswered.sendMax :=
      hsound.sending.unacked.trans (heq ▸ hsound.sending.highest.symm)
    simp [isDuplicate, this] at hdup
  · exact ⟨hsound, harmed'⟩

/-- `tcpProcessAck`. -/
theorem Sound.processAck (hsilent : Silent s) (harmed : Armed s) (now : Nat)
    (seg : TcpSegmentInfo) : ∃ u' n', Sound isn cells u' n' m (tcpProcessAck now seg s) ∧
      Pauses u' n' (tcpProcessAck now seg s) := by
  unfold tcpProcessAck
  split
  · exact ⟨u, n, h.control kTcpAck, Armed.pauses harmed⟩
  rename_i hgt
  split
  · exact ⟨u, n, h, harmed.pauses⟩
  rename_i hlt
  dsimp only
  have hwindow : Sound isn cells u n m (s.setSnd
      { s.snd with peerWindow := seg.window.toNat <<< s.snd.sendScale }) :=
    h.congr rfl h.sending.rto rfl rfl
  split
  · obtain ⟨a, hack, hu, ha⟩ := h.sending.ackPosition (Bool.eq_false_iff.2 hgt)
      (Bool.eq_false_iff.2 hlt)
    obtain ⟨hsound, hpauses⟩ := hwindow.newAck hsyn hsilent hu ha now
    rw [hack]
    exact ⟨a, _, hsound, hpauses⟩
  · obtain ⟨hsound, harmed'⟩ := hwindow.sameAck hsyn harmed now seg s.snd.peerWindow
    exact ⟨u, n, hsound, harmed'.pauses⟩

end

end InstantOS.Tcp

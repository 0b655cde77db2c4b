import InstantOS.Net.TcpAcks

/-!
# Segments that change nothing

Somebody who does not see a connection can send it segments with guessed numbers.  A segment whose
sequence numbers are all outside the receive window, or whose acknowledgement number is outside
what can have been sent, should leave the connection alone: at most an ACK goes out.

`processTcpSegment` has no such test for a segment that is not a RST.  It looks at the
acknowledgement number before the sequence number, and an unacceptable acknowledgement is answered
but the segment still goes on to the payload and the FIN.  `Harmless` says what is left: when a
segment from off the path does leave the connection alone.  The lemmas follow the segment through
the acknowledgement, the payload, the FIN and the output: each part at most answers it.
-/

namespace InstantOS.Tcp

open Base

/-! ## What the connection should keep -/

section

variable (seg : TcpSegmentInfo)

/-- The states in which both sides know each other's numbers. -/
def TcpState.synchronized : TcpState → Bool
  | .closed | .listen | .synSent | .synReceived => false
  | _ => true

/-- The sequence numbers a segment takes. -/
def TcpSegmentInfo.span : Nat :=
  seg.payload.length + (if seg.flags.syn then 1 else 0) + if seg.flags.fin then 1 else 0

/-- No number of the segment lies in the receive window; an empty one has the number it names. -/
def OutsideWindow (r : Receiver) : Prop :=
  ∀ i < max seg.span 1, tcpReceiveSpace r ≤ (seg.seq + BitVec.ofNat 32 i - r.recvNext).toNat

instance (seg : TcpSegmentInfo) (r : Receiver) : Decidable (OutsideWindow seg r) :=
  inferInstanceAs (Decidable (∀ i < max seg.span 1, _))

/-- The acknowledgement number is outside the numbers from `SND.UNA - 2^31` to the highest one
sent. -/
def BadAck (t : Sender) : Prop :=
  seg.flags.ack = true ∧ (t.sendMax - t.sendUnacked).toNat < (seg.ack - t.sendUnacked).toNat ∧
    (seg.ack - t.sendUnacked).toNat < 2147483648

def OffPath (s : Socket) : Prop :=
  OutsideWindow seg s.rcv ∨ BadAck seg s.snd

/-- The receive side, the state, the error and the close flags, and the send queue and windows are
as before, and at most an ACK was sent. -/
structure Unmoved (s s' : Socket) : Prop where
  rcv : s'.rcv = s.rcv
  state : s'.state = s.state
  error : s'.error = s.error
  connected : s'.connected = s.connected
  readClosed : s'.readClosed = s.readClosed
  writeClosed : s'.writeClosed = s.writeClosed
  queue : s'.snd.queue = s.snd.queue
  sendSeq : s'.snd.sendSeq = s.snd.sendSeq
  sendUnacked : s'.snd.sendUnacked = s.snd.sendUnacked
  sendNext : s'.snd.sendNext = s.snd.sendNext
  sendMax : s'.snd.sendMax = s.snd.sendMax
  peerWindow : s'.snd.peerWindow = s.snd.peerWindow
  cwnd : s'.snd.cwnd = s.snd.cwnd
  ssthresh : s'.snd.ssthresh = s.snd.ssthresh
  wire : ∃ acks : List Transmission, s'.wire = s.wire ++ acks ∧ acks.length ≤ 1 ∧
    ∀ x ∈ acks, x.flags = kTcpAck ∧ x.data = []

/-! ## When it does -/

/-- Our FIN is acknowledged and the close has not gone on. -/
def ClosePending (s : Socket) : Prop :=
  s.snd.finAcked = true ∧ (s.state = .finWait1 ∨ s.state = .closing ∨ s.state = .lastAck)
deriving Decidable

/-- The segments of the queue past `SND.NXT`. -/
def unsent (t : Sender) : List TcpSendSegment :=
  t.queue.dropWhile fun seg => seqLe (tcpSegmentEnd seg) t.sendNext

/-- The smaller of the two windows. -/
def sendWindow (t : Sender) : Nat := if t.cwnd < t.peerWindow then t.cwnd else t.peerWindow

/-- Nothing is past `SND.NXT`, or the windows hold it back. -/
def NothingToSend (s : Socket) : Prop :=
  s.state.sends = true →
    ∀ seg rest, unsent s.snd = seg :: rest → heldBack (sendWindow s.snd) seg s.snd = true

def BringsPayload (s : Socket) : Prop :=
  seg.payload.length ≠ 0 ∧ s.state.acceptsData = true
deriving Decidable

/-- The number of the FIN. -/
def TcpSegmentInfo.finSeq : Seq :=
  seg.seq + BitVec.ofNat 32 seg.payload.length

/-- The FIN is the next thing to receive. -/
def BringsFin (r : Receiver) : Prop :=
  seg.flags.fin = true ∧ seg.finSeq = r.recvNext ∧ r.peerFinSeen = false
deriving Decidable

/-- The FIN that was received last comes again. -/
def RepeatsFin (r : Receiver) : Prop :=
  seg.flags.fin = true ∧ r.peerFinSeen = true ∧ seg.finSeq + 1 = r.recvNext
deriving Decidable

/-- A duplicate acknowledgement that inflates the window or starts a fast retransmit.  Both the
window and the MSS are 32 bits wide, and only an MSS of zero would leave the window. -/
def DuplicateActs (t : Sender) : Prop :=
  isDuplicate seg t.peerWindow t = true ∧
    (t.inRecovery = true ∧ ¬ (t.cwnd < 4294967296 ∧ u32 t.sendMss = 0) ∨
      t.inRecovery = false ∧ t.dupAckCount = 2 ∧ t.queue ≠ [])
deriving Decidable

/-- The acknowledgement says nothing new: it is below `SND.UNA`, or it repeats it with the window
known and is no duplicate that counts. -/
def AckIdle (t : Sender) : Prop :=
  seqLt seg.ack t.sendUnacked = true ∨
    seg.ack = t.sendUnacked ∧ seg.window.toNat <<< t.sendScale = t.peerWindow ∧
      ¬ DuplicateActs seg t
deriving Decidable

/-- A segment with an ACK that changes nothing. -/
structure HarmlessAcked (seg : TcpSegmentInfo) (s : Socket) : Prop where
  close : ¬ ClosePending s
  output : NothingToSend s
  fin : ¬ BringsFin seg s.rcv
  -- the bad acknowledgement was answered, so nothing else may be
  early : seqGt seg.ack s.snd.sendMax = true → ¬ BringsPayload seg s ∧ ¬ RepeatsFin seg s.rcv
  late : seqGt seg.ack s.snd.sendMax = false → AckIdle seg s.snd ∧
    (BringsPayload seg s → s.orphan = false ∧ ¬ RepeatsFin seg s.rcv)

def Harmless (s : Socket) : Prop :=
  if seg.flags.rst then resetInWindow seg s.rcv = false
  else if seg.flags.syn || !seg.flags.ack then True
  else HarmlessAcked seg s

end

/-! ## Output -/

/-- How often the segments of a queue were sent. -/
def timesSent (queue : List TcpSendSegment) : Nat :=
  (queue.map TcpSendSegment.transmissions).sum

theorem timesSent_cons (seg : TcpSendSegment) (queue : List TcpSendSegment) :
    timesSent (seg :: queue) = seg.transmissions + timesSent queue := rfl

theorem timesSent_append (before after : List TcpSendSegment) :
    timesSent (before ++ after) = timesSent before + timesSent after := by
  simp [timesSent]

/-- Only `SND.NXT` and the timer move, and nothing sent is taken back. -/
theorem outputLoop_grows (now window : Nat) (segs : List TcpSendSegment) (s : Socket) :
    Moved s.snd (outputLoop now window segs s).2.snd ∧
      s.wire <+: (outputLoop now window segs s).2.wire ∧
      timesSent segs ≤ timesSent (outputLoop now window segs s).1 := by
  induction segs generalizing s with
  | nil => exact ⟨rfl, List.prefix_refl _, le_rfl⟩
  | cons seg rest ih =>
    rw [outputLoop]
    split
    · exact ⟨moved_arm now s.snd, List.prefix_refl _, le_rfl⟩
    obtain ⟨hmoved, hwire, hsent⟩ := ih ((tcpSendSegment seg s).setSnd
      (((tcpSendSegment seg s).snd.advance (tcpSegmentEnd seg)).arm now))
    refine ⟨Moved.trans (Moved.trans ?_ (moved_arm now _)) hmoved,
      (List.prefix_append _ _).trans hwire, ?_⟩
    · rfl
    · simp only [timesSent_cons, TcpSendSegment.sent]
      omega

variable {s : Socket}

/-- The first segment goes out unless the windows hold it back. -/
theorem outputLoop_sent (now window : Nat) {seg : TcpSendSegment} (rest : List TcpSendSegment)
    (hfree : heldBack window seg s.snd = false) :
    timesSent (seg :: rest) < timesSent (outputLoop now window (seg :: rest) s).1 := by
  have hrest := (outputLoop_grows now window rest ((tcpSendSegment seg s).setSnd
    (((tcpSendSegment seg s).snd.advance (tcpSegmentEnd seg)).arm now))).2.2
  rw [outputLoop, if_neg (by simp [hfree])]
  simp only [timesSent_cons, TcpSendSegment.sent]
  omega

theorem not_opening {state : TcpState} (h : state.synchronized) :
    ¬ (state = .synSent ∨ state = .synReceived) := by
  rintro (rfl | rfl) <;> cases h

theorem not_closed {state : TcpState} (h : state.synchronized) : state ≠ .closed := by
  rintro rfl
  cases h

/-- `tcpOutput` past the handshake. -/
theorem tcpOutput_eq (now : Nat)
    (hopen : ¬ (s.state = .synSent ∨ s.state = .synReceived)) (hsends : s.state.sends) :
    tcpOutput now s = (outputLoop now (sendWindow s.snd) (unsent s.snd) s).2.setSnd
      { (outputLoop now (sendWindow s.snd) (unsent s.snd) s).2.snd with
        queue := s.snd.queue.takeWhile (fun seg => seqLe (tcpSegmentEnd seg) s.snd.sendNext) ++
          (outputLoop now (sendWindow s.snd) (unsent s.snd) s).1 } := by
  rw [tcpOutput, if_neg hopen, if_pos hsends]
  rfl

theorem takeWhile_append_unsent (t : Sender) :
    t.queue.takeWhile (fun seg => seqLe (tcpSegmentEnd seg) t.sendNext) ++ unsent t = t.queue :=
  List.takeWhile_append_dropWhile

/-- With nothing to send only the timer may start. -/
theorem tcpOutput_idle (now : Nat) (hsync : s.state.synchronized)
    (h : NothingToSend s) :
    ∃ deadline, tcpOutput now s = s.setSnd { s.snd with rtxDeadline := deadline } := by
  cases hsends : s.state.sends with
  | false =>
    refine ⟨s.snd.rtxDeadline, ?_⟩
    rw [tcpOutput, if_neg (not_opening hsync), if_neg (by simp [hsends])]
    rfl
  | true =>
    rw [tcpOutput_eq now (not_opening hsync) hsends]
    have hqueue := takeWhile_append_unsent s.snd
    cases hunsent : unsent s.snd with
    | nil =>
      rw [hunsent] at hqueue
      refine ⟨s.snd.rtxDeadline, ?_⟩
      rw [outputLoop, hqueue]
    | cons seg rest =>
      rw [hunsent] at hqueue
      refine ⟨(s.snd.arm now).rtxDeadline, ?_⟩
      rw [outputLoop, if_pos (h hsends seg rest hunsent), hqueue]
      rw [Sender.arm]
      split <;> rfl

/-- With something to send the queue changes. -/
theorem tcpOutput_busy (now : Nat) (hsync : s.state.synchronized)
    (h : ¬ NothingToSend s) : timesSent s.snd.queue < timesSent (tcpOutput now s).snd.queue := by
  unfold NothingToSend at h
  push Not at h
  obtain ⟨hsends, seg, rest, hunsent, hfree⟩ := h
  have hsent := outputLoop_sent now (sendWindow s.snd) rest (Bool.eq_false_iff.2 hfree)
  rw [tcpOutput_eq now (not_opening hsync) hsends]
  nth_rewrite 1 [← takeWhile_append_unsent s.snd]
  rw [hunsent, setSnd_snd, timesSent_append, timesSent_append]
  omega

/-! ## Only ACKs -/

/-- Only what was announced, the wire, the timer with its backoff and the count of duplicates may
have changed, and what was sent are `count` pure ACKs. -/
structure Answered (count : Nat) (s s' : Socket) : Prop where
  kept : s' = { s with
    ann := s'.ann
    wire := s'.wire
    snd := { s.snd with
      dupAckCount := s'.snd.dupAckCount
      backoff := s'.snd.backoff
      rtxDeadline := s'.snd.rtxDeadline } }
  acks : ∃ acks : List Transmission, s'.wire = s.wire ++ acks ∧ acks.length = count ∧
    ∀ x ∈ acks, x.flags = kTcpAck ∧ x.data = []

namespace Answered

variable {s s' s'' : Socket} {count count' : Nat} {seg : TcpSegmentInfo}

theorem refl (s : Socket) : Answered 0 s s := ⟨rfl, [], by simp, rfl, by simp⟩

section

variable (h : Answered count s s')

include h

theorem trans (h' : Answered count' s' s'') : Answered (count + count') s s'' := by
  constructor
  · rw [h'.kept, h.kept]
  · obtain ⟨acks, hwire, hlength, hacks⟩ := h.acks
    obtain ⟨acks', hwire', hlength', hacks'⟩ := h'.acks
    refine ⟨acks ++ acks', by rw [hwire', hwire, List.append_assoc], by simp [hlength, hlength'],
      fun x hx => ?_⟩
    rcases List.mem_append.1 hx with hx | hx
    · exact hacks x hx
    · exact hacks' x hx

theorem rcv : s'.rcv = s.rcv := by rw [h.kept]
theorem state : s'.state = s.state := by rw [h.kept]
theorem orphan : s'.orphan = s.orphan := by rw [h.kept]
theorem queue : s'.snd.queue = s.snd.queue := by rw [h.kept]
theorem finAcked : s'.snd.finAcked = s.snd.finAcked := by rw [h.kept]

theorem unsent : unsent s'.snd = unsent s.snd := by
  rw [h.kept]
  rfl

theorem nothingToSend : NothingToSend s' ↔ NothingToSend s := by
  have hheld : ∀ seg, heldBack (sendWindow s'.snd) seg s'.snd =
      heldBack (sendWindow s.snd) seg s.snd := by
    intro seg
    rw [h.kept]
    rfl
  simp only [NothingToSend, h.state, h.unsent, hheld]

theorem closePending : ClosePending s' ↔ ClosePending s := by
  simp only [ClosePending, h.state, h.finAcked]

theorem bringsPayload : BringsPayload seg s' ↔ BringsPayload seg s := by
  simp only [BringsPayload, h.state]

theorem wire_length : s'.wire.length = s.wire.length + count := by
  obtain ⟨acks, hwire, hlength, -⟩ := h.acks
  rw [hwire, List.length_append, hlength]

theorem timer (deadline : Nat) :
    Answered count s (s'.setSnd { s'.snd with rtxDeadline := deadline }) := by
  refine ⟨?_, h.acks⟩
  rw [h.kept]
  rfl

theorem unmoved (hcount : count ≤ 1) : Unmoved s s' := by
  obtain ⟨acks, hwire, hlength, hacks⟩ := h.acks
  have hkept := h.kept
  refine ⟨?_, ?_, ?_, ?_, ?_, ?_, ?_, ?_, ?_, ?_, ?_, ?_, ?_, ?_,
    acks, hwire, hlength ▸ hcount, hacks⟩
  all_goals rw [hkept]

end

end Answered

theorem tcpTransmit_answered (seq : Seq) (again : Bool) (s : Socket) :
    Answered 1 s (tcpTransmit seq kTcpAck [] again s) :=
  ⟨rfl, [_], rfl, rfl, by simp⟩

theorem tcpSendControl_answered (s : Socket) : Answered 1 s (tcpSendControl kTcpAck s) :=
  tcpTransmit_answered _ _ s

/-! ## The acknowledgement -/

theorem u32_add_eq_iff (a b : Nat) : u32 (a + b) = a ↔ a < 4294967296 ∧ u32 b = 0 := by
  unfold u32
  omega

theorem seqLt_self (a : Seq) : seqLt a a = false := by simp [seqLt]
theorem seqGt_self (a : Seq) : seqGt a a = false := by simp [seqGt]

theorem eq_of_not_lt_gt {a b : Seq} (hlt : seqLt a b = false) (hgt : seqGt a b = false) :
    a = b := by
  simp only [seqLt, seqGt, decide_eq_false_iff_not] at hlt hgt
  have hzero : (a - b).toInt = 0 := by omega
  have hsub : a - b = 0 := BitVec.eq_of_toInt_eq (by simpa using hzero)
  calc a = a - b + b := (BitVec.sub_add_cancel a b).symm
    _ = b := by rw [hsub]; exact BitVec.zero_add b

section

variable {seg : TcpSegmentInfo} {s : Socket}

/-- The answer to a probe is a segment like another. -/
theorem isDuplicate_probeAnswered (seg : TcpSegmentInfo) (window : Nat) (t : Sender) :
    isDuplicate seg window t.probeAnswered = isDuplicate seg window t := by
  unfold Sender.probeAnswered
  split <;> rfl

theorem probeAnswered_eq (t : Sender) :
    t.probeAnswered = { t with backoff := t.probeAnswered.backoff } := by
  unfold Sender.probeAnswered
  split <;> rfl

section

variable (now : Nat)

include now

/-- A duplicate that is not acted on is only counted. -/
theorem processDuplicate_answered
    (hrecovery : s.snd.inRecovery → s.snd.cwnd < 4294967296 ∧ u32 s.snd.sendMss = 0)
    (hthird : s.snd.inRecovery = false → s.snd.dupAckCount = 2 → s.snd.queue = []) :
    Answered 0 s (processDuplicate now s) := by
  unfold processDuplicate
  dsimp only
  split
  · rename_i hin
    rw [(u32_add_eq_iff _ _).2 (hrecovery hin)]
    exact ⟨rfl, [], (List.append_nil _).symm, rfl, by simp⟩
  rename_i hin
  split
  · rename_i hfast
    exact absurd (hthird (Bool.eq_false_iff.2 hin) (by omega)) hfast.2
  · exact ⟨rfl, [], (List.append_nil _).symm, rfl, by simp⟩

theorem processSameAck_answered (h : ¬ DuplicateActs seg s.snd) :
    Answered 0 s (processSameAck now seg s.snd.peerWindow s) := by
  have hprobed : Answered 0 s (s.setSnd s.snd.probeAnswered) := by
    refine ⟨?_, [], (List.append_nil _).symm, rfl, by simp⟩
    rw [probeAnswered_eq]
    rfl
  unfold processSameAck
  simp only [setSnd_snd, isDuplicate_probeAnswered]
  split
  · rename_i hdup
    refine hprobed.trans (processDuplicate_answered now ?_ ?_)
    · rw [probeAnswered_eq]
      intro hin
      by_contra hgrows
      exact h ⟨hdup, .inl ⟨hin, hgrows⟩⟩
    · rw [probeAnswered_eq]
      intro hin hcount
      by_contra hqueue
      exact h ⟨hdup, .inr ⟨hin, hcount, hqueue⟩⟩
  · exact hprobed

/-- Sending the first segment of the queue again. -/
theorem sendHead_timesSent {queue : List TcpSendSegment} (hqueue : s.snd.queue = queue)
    (hne : queue ≠ []) : timesSent queue < timesSent (sendHead now s).snd.queue := by
  cases queue with
  | nil => contradiction
  | cons head rest =>
    rw [sendHead, hqueue]
    simp only [setSnd_snd, timesSent_cons, TcpSendSegment.sent]
    omega

theorem sendHead_unacked (s : Socket) : (sendHead now s).snd.sendUnacked = s.snd.sendUnacked := by
  unfold sendHead
  split <;> rfl

theorem growWindow_unacked (ack : Seq) (acked : Nat) (s : Socket) :
    (growWindow now ack acked s).snd.sendUnacked = s.snd.sendUnacked := by
  unfold growWindow
  split
  · split
    · exact sendHead_unacked now s
    · rfl
  · split <;> rfl

theorem processNewAck_unacked {ack unacked : Seq}
    (hunacked : s.snd.sendUnacked = unacked) (h : seqGt ack unacked) :
    (processNewAck now ack s).snd.sendUnacked = ack := by
  obtain ⟨x, y, z, hsample⟩ := ackAndSample_eq ack now s.snd
  unfold processNewAck
  dsimp only
  rw [growWindow_unacked, hsample]
  exact if_pos (hunacked ▸ h)

theorem processDuplicate_peerWindow (s : Socket) :
    (processDuplicate now s).snd.peerWindow = s.snd.peerWindow := by
  unfold processDuplicate
  dsimp only
  split
  · rfl
  split
  · unfold fastRetransmit sendHead
    split <;> rfl
  · rfl

theorem processSameAck_peerWindow (seg : TcpSegmentInfo) (oldWindow : Nat) (s : Socket) :
    (processSameAck now seg oldWindow s).snd.peerWindow = s.snd.peerWindow := by
  unfold processSameAck
  dsimp only
  split
  · rw [processDuplicate_peerWindow, setSnd_snd, probeAnswered_eq]
  · rw [setSnd_snd, probeAnswered_eq]

/-- A duplicate that is acted on leaves a trace in the window or in the queue. -/
theorem processDuplicate_acts
    (h : s.snd.inRecovery ∧ ¬ (s.snd.cwnd < 4294967296 ∧ u32 s.snd.sendMss = 0) ∨
      s.snd.inRecovery = false ∧ s.snd.dupAckCount = 2 ∧ s.snd.queue ≠ []) :
    (processDuplicate now s).snd.cwnd ≠ s.snd.cwnd ∨
      timesSent s.snd.queue < timesSent (processDuplicate now s).snd.queue := by
  unfold processDuplicate
  rcases h with ⟨hin, hgrows⟩ | ⟨hin, hcount, hqueue⟩
  · left
    rw [if_pos hin]
    exact fun heq => hgrows ((u32_add_eq_iff _ _).1 heq)
  · right
    rw [if_neg (by simp [hin]), if_pos ⟨by rw [hcount], hqueue⟩]
    exact sendHead_timesSent now rfl hqueue

theorem processSameAck_acts (h : DuplicateActs seg s.snd) :
    (processSameAck now seg s.snd.peerWindow s).snd.cwnd ≠ s.snd.cwnd ∨
      timesSent s.snd.queue < timesSent (processSameAck now seg s.snd.peerWindow s).snd.queue := by
  unfold processSameAck
  simp only [setSnd_snd, isDuplicate_probeAnswered]
  rw [if_pos h.1]
  have hacts := processDuplicate_acts now (s := s.setSnd s.snd.probeAnswered) (by
    rw [probeAnswered_eq]
    exact h.2)
  rw [probeAnswered_eq] at hacts
  rw [probeAnswered_eq]
  exact hacts

section

variable (hlate : seqGt seg.ack s.snd.sendMax = false)

include hlate

theorem tcpProcessAck_new (hold : seqLt seg.ack s.snd.sendUnacked = false)
    (hnew : seqGt seg.ack s.snd.sendUnacked) : tcpProcessAck now seg s = processNewAck now seg.ack
      (s.setSnd { s.snd with peerWindow := seg.window.toNat <<< s.snd.sendScale }) := by
  rw [tcpProcessAck, if_neg (by simp [hlate]), if_neg (by simp [hold])]
  exact if_pos hnew

theorem tcpProcessAck_same (hsame : seg.ack = s.snd.sendUnacked) :
    tcpProcessAck now seg s = processSameAck now seg s.snd.peerWindow
      (s.setSnd { s.snd with peerWindow := seg.window.toNat <<< s.snd.sendScale }) := by
  rw [tcpProcessAck, if_neg (by simp [hlate]), if_neg (by simp [hsame, seqLt_self])]
  exact if_neg (by simp [hsame, seqGt_self])

/-- An acknowledgement that is not idle moves `SND.UNA` or a window, or sends a segment again. -/
theorem ackIdle_of_unmoved
    (hunacked : (tcpProcessAck now seg s).snd.sendUnacked = s.snd.sendUnacked)
    (hwindow : (tcpProcessAck now seg s).snd.peerWindow = s.snd.peerWindow)
    (hcwnd : (tcpProcessAck now seg s).snd.cwnd = s.snd.cwnd)
    (hsent : timesSent (tcpProcessAck now seg s).snd.queue ≤ timesSent s.snd.queue) :
    AckIdle seg s.snd := by
  cases hold : seqLt seg.ack s.snd.sendUnacked with
  | true => exact .inl hold
  | false =>
    cases hnew : seqGt seg.ack s.snd.sendUnacked with
    | true =>
      rw [tcpProcessAck_new now hlate hold hnew] at hunacked
      have hsame : s.snd.sendUnacked = seg.ack :=
        hunacked.symm.trans (processNewAck_unacked now rfl hnew)
      rw [hsame, seqGt_self] at hnew
      cases hnew
    | false =>
      have hsame := eq_of_not_lt_gt hold hnew
      rw [tcpProcessAck_same now hlate hsame, processSameAck_peerWindow] at hwindow
      rw [tcpProcessAck_same now hlate hsame] at hcwnd hsent
      change seg.window.toNat <<< s.snd.sendScale = s.snd.peerWindow at hwindow
      rw [hwindow] at hcwnd hsent
      refine .inr ⟨hsame, hwindow, fun hacts => ?_⟩
      rcases processSameAck_acts now hacts with hgrown | hresent
      · exact hgrown hcwnd
      · exact absurd hresent (not_lt.2 hsent)

theorem tcpProcessAck_idle (h : AckIdle seg s.snd) : Answered 0 s (tcpProcessAck now seg s) := by
  rcases h with hold | ⟨hsame, hwindow, hcalm⟩
  · rw [tcpProcessAck, if_neg (by simp [hlate]), if_pos hold]
    exact .refl s
  · rw [tcpProcessAck_same now hlate hsame, hwindow]
    exact processSameAck_answered now hcalm

end

end

end

/-! ## The payload and the FIN -/

section

variable {seg : TcpSegmentInfo} {s : Socket}

theorem receiveTrimmed_outside (now : Nat) (memory : List Bool) (psh : Bool) {seq : Seq}
    (data : List UInt8) (h : tcpReceiveSpace s.rcv ≤ (seq - s.rcv.recvNext).toNat) :
    Answered 1 s (receiveTrimmed now memory psh seq data s) := by
  unfold receiveTrimmed
  rw [if_pos h]
  exact tcpSendControl_answered s

/-- Data outside the window is answered and dropped. -/
theorem tcpReceiveData_outside (now : Nat) (memory : List Bool) (h : OutsideWindow seg s.rcv) :
    Answered 1 s (tcpReceiveData now memory seg s) := by
  have hspan : seg.payload.length ≤ max seg.span 1 :=
    le_trans (by unfold TcpSegmentInfo.span; omega) (le_max_left _ _)
  unfold tcpReceiveData
  split
  · dsimp only
    split
    · exact tcpTransmit_answered _ true s
    · exact receiveTrimmed_outside now memory _ _ (h _ (by omega))
  · refine receiveTrimmed_outside now memory _ _ ?_
    simpa using h 0 (by omega)

/-- The part of `processContents` before the FIN, if somebody is left to read. -/
def afterPayload (now : Nat) (memory : List Bool) (seg : TcpSegmentInfo) (s : Socket) : Socket :=
  if BringsPayload seg s then tcpReceiveData now memory seg s else s

theorem processContents_eq (now : Nat) (memory : List Bool)
    (horphan : BringsPayload seg s → s.orphan = false) : processContents now memory seg s =
      tcpOutput now (processFin now seg (afterPayload now memory seg s)) := by
  unfold processContents afterPayload
  by_cases hbrings : BringsPayload seg s
  · rw [if_pos hbrings, if_pos (id hbrings : _ ∧ _), if_neg (by simp [horphan hbrings])]
  · rw [if_neg hbrings, if_neg (id hbrings : ¬ (_ ∧ _))]

theorem afterPayload_answered (now : Nat) (memory : List Bool) (seg : TcpSegmentInfo) (s : Socket)
    (h : BringsPayload seg s → OutsideWindow seg s.rcv) :
    Answered (if BringsPayload seg s then 1 else 0) s (afterPayload now memory seg s) := by
  unfold afterPayload
  split
  · rename_i hbrings
    exact tcpReceiveData_outside now memory (h hbrings)
  · exact .refl s

/-- A FIN that is not the next thing to receive is answered if it is the last one again. -/
theorem processFin_answered (now : Nat) (seg : TcpSegmentInfo) (s : Socket)
    (h : ¬ BringsFin seg s.rcv) :
    Answered (if RepeatsFin seg s.rcv then 1 else 0) s (processFin now seg s) := by
  unfold processFin
  by_cases hrepeats : RepeatsFin seg s.rcv
  · obtain ⟨hfin, hseen, hlast⟩ := id hrepeats
    rw [if_pos hrepeats, if_pos hfin, if_neg (by simp [hseen]), if_pos ⟨hseen, hlast⟩]
    exact tcpSendControl_answered s
  rw [if_neg hrepeats]
  split
  · rename_i hfin
    rw [if_neg (fun hnext => h ⟨hfin, hnext.1, by simpa using hnext.2⟩),
      if_neg (fun hagain => hrepeats ⟨hfin, hagain.1, hagain.2⟩)]
    exact .refl s
  · exact .refl s

end

end InstantOS.Tcp

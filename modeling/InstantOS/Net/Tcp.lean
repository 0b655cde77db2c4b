import InstantOS.Base.Serial

/-!
# The TCP socket

A stream socket with `remoteTcp` set is a TCP connection.  The model follows `socket.cpp`: the
send side appends segments to a queue and transmits from `SND.NXT` as far as the windows allow;
the receive side appends in-order data to the receive queue and holds the rest; one timer
retransmits and probes.

The fields of `SocketObject` that belong to the connection are kept in three groups: the send
side, the receive side, and what was last announced to the peer.  Every function is the branch
the source takes for a `remoteTcp` socket of type `SOCK_STREAM`.  What goes out by
`netTransmitTcpSegment` is logged in `wire`, with the send variables of that moment.
-/

namespace InstantOS.Tcp

open Base

inductive TcpState
  | closed
  | listen
  | synSent
  | synReceived
  | established
  | finWait1
  | finWait2
  | closeWait
  | lastAck
  | closing
  | timeWait
deriving DecidableEq, Repr

structure Flags where
  fin : Bool := false
  syn : Bool := false
  rst : Bool := false
  psh : Bool := false
  ack : Bool := false
deriving DecidableEq, Repr

def kTcpSyn : Flags := { syn := true }
def kTcpAck : Flags := { ack := true }
def kTcpSynAck : Flags := { syn := true, ack := true }
def kTcpFinAck : Flags := { fin := true, ack := true }
def kTcpPshAck : Flags := { psh := true, ack := true }
def kTcpRstAck : Flags := { rst := true, ack := true }

def kTcpMss : Nat := 1460
def kTcpDefaultSendMss : Nat := 536
def kTcpReceiveBuffer : Nat := 256 * 1024
def kTcpWindowScale : Nat := 3
def kTcpSendBufferCap : Nat := 256 * 1024
def kTcpInitialCwndSegments : Nat := 10
def kTcpInitialRtoMs : Nat := 1000
def kTcpMinRtoMs : Nat := 200
def kTcpMaxRtoMs : Nat := 30000
def kTcpSynRetries : Nat := 6
def kTcpMaxRetries : Nat := 12
def kTcpTimeWaitMs : Nat := 2000
def kTcpDelayedAckMs : Nat := 20
def kTcpQuickAckSegments : Nat := 16
def kTcpOrphanTimeoutMs : Nat := 60000

def SysErrAgain : Nat := 11
def SysErrNoMemory : Nat := 12
def SysErrInvalid : Nat := 22
def SysErrBrokenPipe : Nat := 32
def SysErrMessageSize : Nat := 90
def SysErrConnectionReset : Nat := 104
def SysErrNotConnected : Nat := 107
def SysErrTimedOut : Nat := 110
def SysErrConnectionRefused : Nat := 111
def SysErrAlready : Nat := 114
def SysErrInProgress : Nat := 115

/-- The result of an addition in a `uint32_t`. -/
def u32 (n : Nat) : Nat := n % 4294967296

scoped instance scale_pos : NeZero 15 := ⟨by decide⟩

/-- The options of a SYN, as parsed: a window scale above 14 is read as 14. -/
structure TcpOptions where
  mss : BitVec 16 := 0
  hasWindowScale : Bool := false
  windowScale : Fin 15 := 0
deriving DecidableEq, Repr

/-- An inbound segment.  It came in one IP packet. -/
structure TcpSegmentInfo where
  seq : Seq
  ack : Seq
  window : BitVec 16
  flags : Flags
  payload : List UInt8
  options : TcpOptions := {}
  short : payload.length < 65536 := by decide
deriving DecidableEq, Repr

theorem short_nil : ([] : List UInt8).length < 65536 := by decide

structure TcpSendSegment where
  seq : Seq
  flags : Flags
  data : List UInt8
  lastSentMs : Nat := 0
  transmissions : Nat := 0
deriving DecidableEq, Repr

structure TcpReassemblySegment where
  seq : Seq
  data : List UInt8
deriving DecidableEq, Repr

/-- What `netTransmitTcpSegment` was given, with `SND.UNA`, the highest sequence number sent
and the peer's window at that moment. -/
structure Transmission where
  seq : Seq
  ack : Seq
  flags : Flags
  window : Nat
  data : List UInt8
  unacked : Seq
  highest : Seq
  peerWindow : Nat
deriving DecidableEq, Repr

/-- The send side. -/
structure Sender where
  sendSeq : Seq := 0
  sendUnacked : Seq := 0
  sendNext : Seq := 0
  sendMax : Seq := 0
  peerWindow : Nat := 0
  sendMss : Nat := 0
  sendScale : Nat := 0
  cwnd : Nat := 0
  ssthresh : Nat := 0
  inRecovery : Bool := false
  recover : Seq := 0
  dupAckCount : Nat := 0
  srttUs : Nat := 0
  rttvarUs : Nat := 0
  rtoMs : Nat := 0
  backoff : Nat := 0
  rtxDeadline : Nat := 0
  finSent : Bool := false
  finAcked : Bool := false
  queue : List TcpSendSegment := []
deriving DecidableEq, Repr

/-- The receive side; `received` is the chain of `Datagram`s. -/
structure Receiver where
  recvNext : Seq := 0
  recvQueued : Nat := 0
  reasmQueued : Nat := 0
  reasm : List TcpReassemblySegment := []
  received : List (List UInt8) := []
  peerFinSeen : Bool := false
deriving DecidableEq, Repr

/-- The window last announced and the acknowledgement that is due. -/
structure Announcement where
  recvScale : Nat := 0
  offeredScale : Bool := false
  lastWindow : Nat := 0
  announcedRight : Seq := 0
  announced : Bool := false
  ackPending : Nat := 0
  quickAcks : Nat := 0
  ackDeadline : Nat := 0
deriving DecidableEq, Repr

structure Socket where
  snd : Sender := {}
  rcv : Receiver := {}
  ann : Announcement := {}
  state : TcpState := .closed
  error : Nat := 0
  softError : Nat := 0
  connected : Bool := false
  readClosed : Bool := false
  writeClosed : Bool := false
  orphan : Bool := false
  orphanDeadline : Nat := 0
  timeWaitDeadline : Nat := 0
  wire : List Transmission := []
deriving DecidableEq, Repr

/-! ## Segments and timers of the send side -/

variable (now : Nat)

/-- `tcpSegmentSpan`: the payload, or 1 for a SYN or FIN. -/
def tcpSegmentSpan (seg : TcpSendSegment) : Nat :=
  if seg.data.length ≠ 0 then seg.data.length
  else if seg.flags.syn || seg.flags.fin then 1 else 0

def tcpSegmentEnd (seg : TcpSendSegment) : Seq :=
  seg.seq + BitVec.ofNat 32 (tcpSegmentSpan seg)

def tcpCurrentRto (t : Sender) : Nat :=
  let shift := if t.backoff < 8 then t.backoff else 8
  let rto := t.rtoMs <<< shift
  if rto < kTcpMaxRtoMs then rto else kTcpMaxRtoMs

/-- Starts the retransmission timer if it is stopped. -/
def Sender.arm (t : Sender) : Sender :=
  if t.rtxDeadline = 0 then { t with rtxDeadline := now + tcpCurrentRto t } else t

/-- `SND.NXT` moves to `last`, and the highest number sent with it. -/
def Sender.advance (last : Seq) (t : Sender) : Sender :=
  { t with sendNext := last, sendMax := if seqGt last t.sendMax then last else t.sendMax }

def tcpRttSample (sampleMs : Nat) (t : Sender) : Sender :=
  let r := (if sampleMs ≠ 0 then sampleMs else 1) * 1000
  let t : Sender :=
    if t.srttUs = 0 then { t with srttUs := r, rttvarUs := r / 2 }
    else
      let diff := if t.srttUs > r then t.srttUs - r else r - t.srttUs
      { t with rttvarUs := (3 * t.rttvarUs + diff) / 4, srttUs := (7 * t.srttUs + r) / 8 }
  let variance := if 4 * t.rttvarUs > 10000 then 4 * t.rttvarUs else 10000
  let rto := (t.srttUs + variance + 999) / 1000
  let rto := if rto < kTcpMinRtoMs then kTcpMinRtoMs else rto
  { t with rtoMs := if rto < kTcpMaxRtoMs then rto else kTcpMaxRtoMs }

/-- `tcpInitConnection`.  The queues, the receive queue and the close flags stay as they are. -/
def tcpInitConnection (isn : Seq) (s : Socket) : Socket :=
  { s with
    snd := { s.snd with
      sendSeq := isn, sendUnacked := isn, sendNext := isn, sendMax := isn
      peerWindow := 0, sendMss := kTcpDefaultSendMss, sendScale := 0
      cwnd := kTcpInitialCwndSegments * kTcpDefaultSendMss, ssthresh := 0xFFFFFFFF
      inRecovery := false, recover := isn, dupAckCount := 0
      srttUs := 0, rttvarUs := 0, rtoMs := kTcpInitialRtoMs, backoff := 0, rtxDeadline := 0
      finSent := false, finAcked := false }
    rcv := { s.rcv with recvNext := 0, recvQueued := 0, reasmQueued := 0, peerFinSeen := false }
    ann := { s.ann with
      recvScale := 0, offeredScale := false, ackPending := 0, ackDeadline := 0
      announced := false }
    softError := 0 }

/-- `tcpEstablish`: the MSS, the window scales and the initial congestion window. -/
def tcpEstablish (peer : TcpOptions) (s : Socket) : Socket :=
  let mss := if peer.mss.toNat ≠ 0 then
      (if peer.mss.toNat < kTcpMss then peer.mss.toNat else kTcpMss)
    else kTcpDefaultSendMss
  let mss := if mss < 64 then 64 else mss
  let scaled := s.ann.offeredScale && peer.hasWindowScale
  { s with
    snd := { s.snd with
      sendMss := mss
      sendScale := if scaled then peer.windowScale else 0
      cwnd := kTcpInitialCwndSegments * mss }
    ann := { s.ann with
      recvScale := if scaled then kTcpWindowScale else 0
      quickAcks := kTcpQuickAckSegments } }

/-! ## Transmission -/

def tcpReceiveSpace (r : Receiver) : Nat :=
  if r.recvQueued ≥ kTcpReceiveBuffer then 0 else kTcpReceiveBuffer - r.recvQueued

def tcpAdvertisedWindow (s : Socket) (syn : Bool) : Nat :=
  let space := tcpReceiveSpace s.rcv
  if syn then (if space > 0xFFFF then 0xFFFF else space)
  else
    let largest := 0xFFFF <<< s.ann.recvScale
    let want := if space < largest then space else largest
    let current :=
      if seqGt s.ann.announcedRight s.rcv.recvNext
      then (s.ann.announcedRight - s.rcv.recvNext).toNat else 0
    let want := if s.ann.announced && want < current + kTcpMss then current else want
    let want := want >>> s.ann.recvScale
    if want > 0xFFFF then 0xFFFF else want

/-- `netTransmitTcpSegment`. -/
def netTransmit (seq ack : Seq) (flags : Flags) (window : Nat) (data : List UInt8)
    (s : Socket) : Socket :=
  { s with wire := s.wire ++
      [⟨seq, ack, flags, window, data, s.snd.sendUnacked, s.snd.sendMax, s.snd.peerWindow⟩] }

/-- The window that `tcpTransmit` puts into a segment. -/
def transmitWindow (flags : Flags) (repeatWindow : Bool) (s : Socket) : Nat :=
  if repeatWindow && s.ann.announced && !flags.syn then s.ann.lastWindow
  else tcpAdvertisedWindow s flags.syn

/-- What `tcpTransmit` notes about the segment it sends. -/
def announce (flags : Flags) (window : Nat) (recvNext : Seq) (ann : Announcement) : Announcement :=
  let ann :=
    if flags.syn then ann
    else { ann with
      lastWindow := window
      announcedRight := recvNext + BitVec.ofNat 32 (window <<< ann.recvScale)
      announced := true }
  if flags.ack then { ann with ackPending := 0, ackDeadline := 0 } else ann

def tcpTransmit (seq : Seq) (flags : Flags) (data : List UInt8) (repeatWindow : Bool)
    (s : Socket) : Socket :=
  let window := transmitWindow flags repeatWindow s
  netTransmit seq s.rcv.recvNext flags window data
    { s with ann := announce flags window s.rcv.recvNext s.ann }

/-- `tcpSendControl`: a control segment that is not retained. -/
def tcpSendControl (flags : Flags) (s : Socket) : Socket :=
  tcpTransmit s.snd.sendNext flags [] false s

/-- The segment after `tcpSendSegment`. -/
def TcpSendSegment.sent (seg : TcpSendSegment) : TcpSendSegment :=
  { seg with transmissions := seg.transmissions + 1, lastSentMs := now }

/-- `tcpSendSegment`, without the change of the segment itself. -/
def tcpSendSegment (seg : TcpSendSegment) (s : Socket) : Socket :=
  tcpTransmit seg.seq seg.flags seg.data false s

def Socket.setSnd (t : Sender) (s : Socket) : Socket := { s with snd := t }

/-- Sends the first segment of the queue, if there is one. -/
def sendHead (s : Socket) : Socket :=
  match s.snd.queue with
  | [] => s
  | seg :: rest => (tcpSendSegment seg s).setSnd { s.snd with queue := seg.sent now :: rest }

/-- Past the window.  With nothing in flight one segment may still go into a small but open
window. -/
def heldBack (window : Nat) (seg : TcpSendSegment) (t : Sender) : Bool :=
  let bareFin := seg.data.length = 0 && seg.flags.fin
  !bareFin && decide ((tcpSegmentEnd seg - t.sendUnacked).toNat > window) &&
    (t.sendNext != t.sendUnacked || t.peerWindow = 0)

/-- The second loop of `tcpOutput`; what is held back leaves the timer running. -/
def outputLoop (now window : Nat) : List TcpSendSegment → Socket → List TcpSendSegment × Socket
  | [], s => ([], s)
  | seg :: rest, s =>
    if heldBack window seg s.snd then (seg :: rest, s.setSnd (s.snd.arm now))
    else
      let s := tcpSendSegment seg s
      let s := s.setSnd ((s.snd.advance (tcpSegmentEnd seg)).arm now)
      let (rest, s) := outputLoop now window rest s
      (seg.sent now :: rest, s)

/-- Whether the connection is past its handshake and not yet over. -/
def TcpState.sends : TcpState → Bool
  | .closed | .listen | .synSent | .synReceived | .timeWait => false
  | _ => true

def tcpOutput (s : Socket) : Socket :=
  if s.state = .synSent ∨ s.state = .synReceived then
    match s.snd.queue with
    | [] => s
    | seg :: rest =>
      if seg.flags.syn && s.snd.sendNext == s.snd.sendUnacked then
        let t := (s.snd.advance (tcpSegmentEnd seg)).arm now
        (tcpSendSegment seg s).setSnd { t with queue := seg.sent now :: rest }
      else s
  else if s.state.sends then
    let sentBefore (seg : TcpSendSegment) := seqLe (tcpSegmentEnd seg) s.snd.sendNext
    let window := if s.snd.cwnd < s.snd.peerWindow then s.snd.cwnd else s.snd.peerWindow
    let (rest, s') := outputLoop now window (s.snd.queue.dropWhile sentBefore) s
    s'.setSnd { s'.snd with queue := s.snd.queue.takeWhile sentBefore ++ rest }
  else s

/-- `tcpQueueSegment`; `allocated` says whether `new` gave the segment and its buffer. -/
def tcpQueueSegment (flags : Flags) (data : List UInt8) (allocated : Bool)
    (s : Socket) : Bool × Socket :=
  if allocated then
    let seg : TcpSendSegment := { seq := s.snd.sendSeq, flags := flags, data := data }
    (true, tcpOutput now (s.setSnd { s.snd with
      queue := s.snd.queue ++ [seg]
      sendSeq := s.snd.sendSeq + BitVec.ofNat 32 (tcpSegmentSpan seg) }))
  else (false, s)

/-! ## Acknowledgements -/

/-- The loop of `tcpAckSendQueue`: what is left of the queue, whether a FIN was covered, and the
RTT sample of the newest segment that was sent once. -/
def ackQueue (ackNum : Seq) (now : Nat) :
    List TcpSendSegment → Bool → Option Nat → List TcpSendSegment × Bool × Option Nat
  | [], finAcked, sample => ([], finAcked, sample)
  | seg :: rest, finAcked, sample =>
    if seqLt ackNum (tcpSegmentEnd seg) then (seg :: rest, finAcked, sample)
    else
      ackQueue ackNum now rest (finAcked || seg.flags.fin)
        (if seg.transmissions = 1 then some (now - seg.lastSentMs) else sample)

def tcpAckSendQueue (ackNum : Seq) (now : Nat) (t : Sender) : Option Nat × Sender :=
  let (queue, finAcked, sample) := ackQueue ackNum now t.queue t.finAcked none
  let unacked := if seqGt ackNum t.sendUnacked then ackNum else t.sendUnacked
  let next := if seqLt t.sendNext unacked then unacked else t.sendNext
  (sample, { t with
    queue := queue, finAcked := finAcked, sendUnacked := unacked, sendNext := next })

/-- The queue after an acknowledgement, with the RTT sample taken. -/
def ackAndSample (ackNum : Seq) (now : Nat) (t : Sender) : Sender :=
  match tcpAckSendQueue ackNum now t with
  | (some ms, t) => tcpRttSample ms t
  | (none, t) => t

/-- The congestion window after `acked` new bytes were acknowledged up to `ack`. -/
def growWindow (ack : Seq) (acked : Nat) (s : Socket) : Socket :=
  let mss := s.snd.sendMss
  if s.snd.inRecovery then
    if seqLt ack s.snd.recover then
      -- NewReno partial ACK: the next hole is lost too
      let s := sendHead now s
      s.setSnd { s.snd with
        cwnd := if s.snd.cwnd > acked then u32 (s.snd.cwnd - acked + mss) else mss }
    else s.setSnd { s.snd with inRecovery := false, cwnd := s.snd.ssthresh }
  else if s.snd.cwnd < s.snd.ssthresh then
    s.setSnd { s.snd with cwnd := u32 (s.snd.cwnd + if acked < mss then acked else mss) }
  else
    let step := mss * mss / s.snd.cwnd
    s.setSnd { s.snd with cwnd := u32 (s.snd.cwnd + if step ≠ 0 then step else 1) }

/-- The branch of `tcpProcessAck` for an ACK past `SND.UNA`. -/
def processNewAck (ack : Seq) (s : Socket) : Socket :=
  let acked := (ack - s.snd.sendUnacked).toNat
  let s := s.setSnd { ackAndSample ack now s.snd with backoff := 0, dupAckCount := 0 }
  let s := growWindow now ack acked s
  let t := { s.snd with cwnd := if s.snd.cwnd > 2 ^ 30 then 2 ^ 30 else s.snd.cwnd }
  s.setSnd { t with
    rtxDeadline := if t.sendUnacked = t.sendMax then 0 else now + tcpCurrentRto t }

/-- The slow-start threshold after a loss. -/
def lossThreshold (t : Sender) : Nat :=
  let flight := (t.sendMax - t.sendUnacked).toNat
  if flight / 2 > 2 * t.sendMss then flight / 2 else 2 * t.sendMss

/-- Whether an ACK of `SND.UNA` counts as a duplicate. -/
def isDuplicate (seg : TcpSegmentInfo) (oldWindow : Nat) (t : Sender) : Bool :=
  seg.payload.length = 0 && !(seg.flags.syn || seg.flags.fin) &&
    t.peerWindow = oldWindow && t.sendUnacked != t.sendMax

/-- The peer answers probes of its zero window: it is alive. -/
def Sender.probeAnswered (t : Sender) : Sender :=
  if t.peerWindow = 0 then { t with backoff := 0 } else t

/-- Fast retransmit, then fast recovery. -/
def fastRetransmit (s : Socket) : Socket :=
  let s := sendHead now (s.setSnd { s.snd with
    ssthresh := lossThreshold s.snd, recover := s.snd.sendMax, inRecovery := true })
  s.setSnd { s.snd with
    cwnd := s.snd.ssthresh + 3 * s.snd.sendMss
    rtxDeadline := now + tcpCurrentRto s.snd }

def processDuplicate (s : Socket) : Socket :=
  let t := { s.snd with dupAckCount := s.snd.dupAckCount + 1 }
  if t.inRecovery then s.setSnd { t with cwnd := u32 (t.cwnd + t.sendMss) }
  else if t.dupAckCount = 3 ∧ t.queue ≠ [] then fastRetransmit now (s.setSnd t)
  else s.setSnd t

/-- The branch of `tcpProcessAck` for an ACK of `SND.UNA`. -/
def processSameAck (seg : TcpSegmentInfo) (oldWindow : Nat) (s : Socket) : Socket :=
  let s := s.setSnd s.snd.probeAnswered
  if isDuplicate seg oldWindow s.snd then processDuplicate now s else s

def tcpProcessAck (seg : TcpSegmentInfo) (s : Socket) : Socket :=
  if seqGt seg.ack s.snd.sendMax then tcpSendControl kTcpAck s
  else if seqLt seg.ack s.snd.sendUnacked then s
  else
    let oldWindow := s.snd.peerWindow
    let s := s.setSnd { s.snd with peerWindow := seg.window.toNat <<< s.snd.sendScale }
    if seqGt seg.ack s.snd.sendUnacked then processNewAck now seg.ack s
    else processSameAck now seg oldWindow s

/-- `tcpSendWindowUpdate`, after the application has read. -/
def tcpSendWindowUpdate (s : Socket) : Socket :=
  if s.state = .established ∨ s.state = .finWait1 ∨ s.state = .finWait2 then
    let now := tcpAdvertisedWindow s false
    if now > s.ann.lastWindow ∧
        (now - s.ann.lastWindow) <<< s.ann.recvScale ≥ 2 * kTcpMss then
      tcpSendControl kTcpAck s
    else s
  else s

/-! ## Receiving -/

/-- The answer of the next `new` pair, an object and its buffer; the answers not given are
successes. -/
def allocate : List Bool → Bool × List Bool
  | [] => (true, [])
  | b :: memory => (b, memory)

def tcpAppendReceived (data : List UInt8) (memory : List Bool) (r : Receiver) :
    List Bool × Receiver :=
  if data.length = 0 then (memory, r)
  else
    let (given, memory) := allocate memory
    if given then
      (memory, { r with
        received := r.received ++ [data]
        recvNext := r.recvNext + BitVec.ofNat 32 data.length
        recvQueued := r.recvQueued + data.length })
    else (memory, r)

/-- `tcpFreeReassembly`. -/
def tcpFreeReassembly (h : TcpReassemblySegment) (r : Receiver) : Receiver :=
  { r with reasmQueued := r.reasmQueued -
      (if h.data.length < r.reasmQueued then h.data.length else r.reasmQueued) }

/-- What one pass of `tcpDrainReassembly` works on: the receiver (its hold list not looked at),
the answers of the allocator, whether the pass made progress and whether anything moved. -/
structure Drain where
  rcv : Receiver
  memory : List Bool
  progress : Bool := false
  moved : Bool := false
deriving DecidableEq, Repr

/-- One pass over the hold list; the list that is left comes first. -/
def drainPass : List TcpReassemblySegment → Drain → List TcpReassemblySegment × Drain
  | [], d => ([], d)
  | h :: rest, d =>
    let last := h.seq + BitVec.ofNat 32 h.data.length
    if seqLe last d.rcv.recvNext then
      -- already have all of it
      drainPass rest { d with rcv := tcpFreeReassembly h d.rcv, progress := true }
    else if seqLe h.seq d.rcv.recvNext then
      let skip := (d.rcv.recvNext - h.seq).toNat
      let (memory, r) := tcpAppendReceived (h.data.drop skip) d.memory d.rcv
      drainPass rest ⟨tcpFreeReassembly h r, memory, true, true⟩
    else
      let (rest, d) := drainPass rest d
      (h :: rest, d)

/-- The outer loop.  A pass that makes progress shortens the list, so its length is enough. -/
def drainLoop : Nat → List Bool → Receiver → Bool × Receiver
  | 0, _, r => (false, r)
  | fuel + 1, memory, r =>
    let (held, d) := drainPass r.reasm ⟨r, memory, false, false⟩
    let r := { d.rcv with reasm := held }
    if d.progress then
      let (moved, r) := drainLoop fuel d.memory r
      (d.moved || moved, r)
    else (d.moved, r)

def tcpDrainReassembly (memory : List Bool) (r : Receiver) : Bool × Receiver :=
  drainLoop (r.reasm.length + 1) memory r

def tcpBufferOutOfOrder (seq : Seq) (data : List UInt8) (memory : List Bool) (r : Receiver) :
    Receiver :=
  if r.reasm.any fun h => h.seq == seq && decide (h.data.length ≥ data.length) then r
  else if (allocate memory).1 then
    { r with
      reasm := ⟨seq, data⟩ :: r.reasm
      reasmQueued := u32 (r.reasmQueued + data.length) }
  else r

/-- The acknowledgement of in-order data: at once, or after the delay. -/
def acknowledgeData (psh filledHole : Bool) (s : Socket) : Socket :=
  let quick := s.ann.quickAcks ≠ 0
  let s := { s with ann := { s.ann with
    ackPending := s.ann.ackPending + 1, quickAcks := s.ann.quickAcks - 1 } }
  if filledHole || s.rcv.reasm ≠ [] || s.ann.ackPending ≥ 2 || quick || psh then
    tcpSendControl kTcpAck s
  else if s.ann.ackDeadline = 0 then
    { s with ann := { s.ann with ackDeadline := now + kTcpDelayedAckMs } }
  else s

/-- The part of `tcpReceiveData` after the trim on the left. -/
def receiveTrimmed (memory : List Bool) (psh : Bool) (seq : Seq) (data : List UInt8)
    (s : Socket) : Socket :=
  let space := tcpReceiveSpace s.rcv
  let offset := (seq - s.rcv.recvNext).toNat
  if offset ≥ space then tcpSendControl kTcpAck s   -- outside the window
  else
    let data := if offset + data.length > space then data.take (space - offset) else data
    if offset ≠ 0 then
      -- a hole before this: hold it and send a duplicate ACK
      tcpTransmit s.snd.sendNext kTcpAck [] true
        { s with rcv := tcpBufferOutOfOrder seq data memory s.rcv }
    else
      let (memory, r) := tcpAppendReceived data memory s.rcv
      let (filledHole, r) := tcpDrainReassembly memory r
      acknowledgeData now psh filledHole { s with rcv := r }

def tcpReceiveData (memory : List Bool) (seg : TcpSegmentInfo) (s : Socket) : Socket :=
  if seqLt seg.seq s.rcv.recvNext then
    let skip := (s.rcv.recvNext - seg.seq).toNat
    if skip ≥ seg.payload.length then
      tcpTransmit s.snd.sendNext kTcpAck [] true s   -- a duplicate: say where we are
    else
      receiveTrimmed now memory seg.flags.psh (seg.seq + BitVec.ofNat 32 skip)
        (seg.payload.drop skip) s
  else receiveTrimmed now memory seg.flags.psh seg.seq seg.payload s

/-! ## Closing -/

def tcpStartClose (allocated : Bool) (s : Socket) : Socket :=
  if s.snd.finSent || !(s.state = .established || s.state = .closeWait || s.state = .synReceived)
  then s
  else
    let state := if s.state = .closeWait then TcpState.lastAck else TcpState.finWait1
    let s := { s with state := state, snd := { s.snd with finSent := true } }
    (tcpQueueSegment now kTcpFinAck [] allocated s).2

/-- `freeTcpQueues`: the send queue and the hold list; received data stays. -/
def freeTcpQueues (s : Socket) : Socket :=
  { s with snd := { s.snd with queue := [] }, rcv := { s.rcv with reasm := [] } }

def tcpAbort (error : Nat) (s : Socket) : Socket :=
  freeTcpQueues { s with
    error := error
    readClosed := true
    writeClosed := true
    connected := false
    state := .closed
    snd := { s.snd with rtxDeadline := 0 }
    ann := { s.ann with ackDeadline := 0 } }

/-! ## An inbound segment -/

-- what `kmalloc` grants, the segment, and the connection it is for
variable (memory : List Bool) (seg : TcpSegmentInfo) (s : Socket)

/-- `tcpRefuseSegment`. -/
def tcpRefuseSegment : Socket :=
  if seg.flags.rst then s
  else if seg.flags.ack then netTransmit seg.ack 0 { rst := true } 0 [] s
  else
    let last := seg.seq + BitVec.ofNat 32 seg.payload.length +
      (if seg.flags.syn then 1 else 0) + (if seg.flags.fin then 1 else 0)
    netTransmit 0 last kTcpRstAck 0 [] s

/-- The first part of `processTcpSegment`: a SYN to a listener makes a new socket. -/
def passiveOpen (isn : Seq) (allocated : Bool) (seg : TcpSegmentInfo) : Socket :=
  let s := tcpInitConnection isn {}
  let s := { s with
    state := .synReceived
    rcv := { s.rcv with recvNext := seg.seq + 1 }
    snd := { s.snd with peerWindow := seg.window.toNat }
    ann := { s.ann with offeredScale := seg.options.hasWindowScale } }
  (tcpQueueSegment now kTcpSynAck [] allocated (tcpEstablish seg.options s)).2

/-- Whether a RST lies in the receive window. -/
def resetInWindow (r : Receiver) : Bool :=
  let window := if tcpReceiveSpace r ≠ 0 then tcpReceiveSpace r else 1
  !(seqLt seg.seq r.recvNext || seqGe seg.seq (r.recvNext + BitVec.ofNat 32 window))

def processReset : Socket :=
  if s.state = .synSent then
    if !seg.flags.ack || seg.ack != s.snd.sendMax then s
    else tcpAbort SysErrConnectionRefused s
  else if resetInWindow seg s.rcv then tcpAbort SysErrConnectionReset s
  else s

/-- A segment that is no RST, in the state `SynSent`. -/
def processSynSent : Socket :=
  if seg.flags.syn && seg.flags.ack then
    if seg.ack != s.snd.sendMax then tcpRefuseSegment seg s   -- not an answer to our SYN
    else
      let s := { s with
        snd := { ackAndSample seg.ack now s.snd with
          backoff := 0, rtxDeadline := 0, peerWindow := seg.window.toNat }
        rcv := { s.rcv with recvNext := seg.seq + 1 } }
      tcpSendControl kTcpAck { tcpEstablish seg.options s with
        state := .established, connected := true }
  else if seg.flags.syn then
    -- simultaneous open: the peer's SYN crossed ours
    let s := { s with
      snd := { s.snd with peerWindow := seg.window.toNat }
      rcv := { s.rcv with recvNext := seg.seq + 1 } }
    let s := { tcpEstablish seg.options s with state := .synReceived }
    match s.snd.queue with
    | [] => s
    | head :: rest => tcpOutput now (s.setSnd { s.snd with
        queue := { head with flags := kTcpSynAck } :: rest
        sendNext := s.snd.sendUnacked })
  else s

/-- Our SYN-ACK acknowledged: a passive open is complete. -/
def completeOpen : Socket :=
  if s.state = .synReceived ∧ s.snd.sendUnacked = s.snd.sendMax then
    { s with state := .established, connected := true }
  else s

/-- Our FIN acknowledged: advance the close. -/
def advanceClose : Socket :=
  if s.snd.finAcked then
    if s.state = .finWait1 then { s with state := .finWait2 }
    else if s.state = .closing then
      { s with state := .timeWait, timeWaitDeadline := now + kTcpTimeWaitMs }
    else if s.state = .lastAck then
      { s with state := .closed, connected := false, snd := { s.snd with rtxDeadline := 0 } }
    else s
  else s

def TcpState.acceptsData (state : TcpState) : Bool :=
  state = .established || state = .finWait1 || state = .finWait2

/-- The state after the peer's FIN. -/
def stateAfterFin : Socket :=
  match s.state with
  | .established | .synReceived => { s with state := .closeWait }
  | .finWait1 =>
    if s.snd.finAcked then
      { s with state := .timeWait, timeWaitDeadline := now + kTcpTimeWaitMs }
    else { s with state := .closing }
  | .finWait2 => { s with state := .timeWait, timeWaitDeadline := now + kTcpTimeWaitMs }
  | _ => s

/-- The FIN counts once everything before it is in. -/
def processFin : Socket :=
  if seg.flags.fin then
    let finSeq := seg.seq + BitVec.ofNat 32 seg.payload.length
    if finSeq = s.rcv.recvNext ∧ !s.rcv.peerFinSeen then
      stateAfterFin now (tcpSendControl kTcpAck { s with
        rcv := { s.rcv with recvNext := s.rcv.recvNext + 1, peerFinSeen := true }
        readClosed := true })
    else if s.rcv.peerFinSeen ∧ finSeq + 1 = s.rcv.recvNext then
      tcpSendControl kTcpAck s   -- a repeated FIN: our ACK was lost
    else s
  else s

/-- The payload and the FIN of a segment whose ACK has been processed. -/
def processContents : Socket :=
  if seg.payload.length ≠ 0 ∧ s.state.acceptsData then
    if s.orphan then
      -- nobody is left to read it: reset
      tcpAbort SysErrConnectionReset (tcpTransmit s.snd.sendMax kTcpRstAck [] false s)
    else tcpOutput now (processFin now seg (tcpReceiveData now memory seg s))
  else tcpOutput now (processFin now seg s)

/-- A segment with an ACK, after the handshake. -/
def processAcked : Socket :=
  let s := tcpProcessAck now seg s
  if s.state = .closed then s
  else
    let s := advanceClose now (completeOpen s)
    if s.state = .closed then s
    else processContents now memory seg s

/-- `processTcpSegment`, for a segment that belongs to the connection. -/
def processTcpSegment : Socket :=
  if seg.flags.rst then processReset seg s
  else if s.state = .synSent then processSynSent now seg s
  else if seg.flags.syn then
    -- the peer repeats its SYN: our SYN-ACK, or the ACK of theirs, was lost
    if s.state = .synReceived ∧ s.snd.queue ≠ [] then sendHead now s
    else tcpSendControl kTcpAck s
  else if !seg.flags.ack then s
  else processAcked now memory seg s

/-! ## Timers -/

/-- Nothing in flight, data held back by a zero window: probe it with the next segment. -/
def probe (seg : TcpSendSegment) (s : Socket) : Socket :=
  let s := sendHead now s
  s.setSnd { s.snd with
    sendNext := tcpSegmentEnd seg
    sendMax := tcpSegmentEnd seg
    rtxDeadline := now + tcpCurrentRto s.snd }

/-- Timeout: collapse the window and go back to the oldest unacknowledged byte. -/
def goBack : Socket :=
  tcpOutput now (s.setSnd { s.snd with
    ssthresh := lossThreshold s.snd
    cwnd := s.snd.sendMss
    inRecovery := false
    dupAckCount := 0
    sendNext := s.snd.sendUnacked })

/-- Timeouts in a row before the connection is given up. -/
def retryLimit (state : TcpState) : Nat :=
  if state = .synSent ∨ state = .synReceived then kTcpSynRetries else kTcpMaxRetries

/-- The retransmission timer has fired. -/
def retransmit : Socket :=
  let s := s.setSnd { s.snd with rtxDeadline := 0 }
  match s.snd.queue with
  | [] => s
  | seg :: _ =>
    if s.snd.backoff ≥ retryLimit s.state then
      tcpAbort (if s.softError ≠ 0 then s.softError else SysErrTimedOut) s
    else
      let s := s.setSnd { s.snd with backoff := s.snd.backoff + 1 }
      if s.snd.sendUnacked = s.snd.sendMax then probe now seg s else goBack now s

/-- The delayed acknowledgement. -/
def acknowledgeIfDue : Socket :=
  if s.ann.ackDeadline ≠ 0 ∧ now ≥ s.ann.ackDeadline then tcpSendControl kTcpAck s else s

def tcpTimers : Socket :=
  let s := acknowledgeIfDue now s
  if s.state = .timeWait then
    if now ≥ s.timeWaitDeadline then
      freeTcpQueues { s with state := .closed, connected := false }
    else s
  else if s.snd.rtxDeadline = 0 ∨ now < s.snd.rtxDeadline then s
  else retransmit now s

/-! ## System calls -/

/-- What a call comes to: it sleeps until the socket changes, or it returns. -/
inductive Answer
  | waits
  | returns (value : Nat)
  | fails (error : Nat)
deriving DecidableEq, Repr

def takeSocketError : Answer × Socket :=
  (.fails s.error, { s with error := 0 })

/-- Where `sys_connect` finds the address: no route or port, a listener on this machine that
takes the connection or does not, or another host. -/
inductive Destination
  | unreachable (error : Nat)
  | loopback (accepts : Bool)
  | remote (isn : Seq) (allocated : Bool)
deriving DecidableEq, Repr

def sysConnect (mayWait : Bool) (dest : Destination) (s : Socket) : Answer × Socket :=
  if s.error ≠ 0 then takeSocketError s
  else if s.state = .established then (.returns 0, s)
  else if s.state = .synSent ∨ s.state = .synReceived then (.fails SysErrAlready, s)
  else
    match dest with
    | .unreachable error => (.fails error, s)
    | .loopback accepts =>
      if accepts then (.returns 0, { s with connected := true }) else (.fails SysErrAgain, s)
    | .remote isn allocated =>
      let s := tcpInitConnection isn s
      let s := { s with
        ann := { s.ann with offeredScale := true }, state := .synSent, connected := false }
      match tcpQueueSegment now kTcpSyn [] allocated s with
      | (false, s) => (.fails SysErrNoMemory, { s with state := .closed })
      | (true, s) => (if mayWait then .waits else .fails SysErrInProgress, s)

/-- The answer of a send that ends with `offset` bytes queued. -/
def sendAnswer (offset error : Nat) : Answer :=
  if offset ≠ 0 then .returns offset else .fails error

/-- The bytes the next segment takes of `length` that are left. -/
def sendChunk (t : Sender) (length : Nat) : Nat :=
  min (min length (kTcpSendBufferCap - (t.sendSeq - t.sendUnacked).toNat)) t.sendMss

/-- The loop of `sys_send` over what is left of the buffer; `copies` are the answers of
`copyFromUser`. -/
def sendLoop (now : Nat) (mayWait : Bool) :
    Nat → List UInt8 → Nat → List Bool → List Bool → Socket → Answer × Socket
  | 0, _, offset, _, _, s => (.returns offset, s)
  | fuel + 1, data, offset, memory, copies, s =>
    if data.length = 0 then (.returns offset, s)
    else if s.error ≠ 0 then if offset ≠ 0 then (.returns offset, s) else takeSocketError s
    else if s.writeClosed then (sendAnswer offset SysErrBrokenPipe, s)
    else if ¬ (s.state = .established ∨ s.state = .closeWait) then
      (sendAnswer offset SysErrNotConnected, s)
    else if (s.snd.sendSeq - s.snd.sendUnacked).toNat ≥ kTcpSendBufferCap then
      (if mayWait then .waits else sendAnswer offset SysErrAgain, s)
    else if !(allocate copies).1 then (sendAnswer offset SysErrInvalid, s)
    else
      let chunk := sendChunk s.snd data.length
      match tcpQueueSegment now kTcpPshAck (data.take chunk) (allocate memory).1 s with
      | (false, s) => (sendAnswer offset SysErrNoMemory, s)
      | (true, s) =>
        sendLoop now mayWait fuel (data.drop chunk) (offset + chunk)
          (allocate memory).2 (allocate copies).2 s

def sysSend (mayWait : Bool) (data : List UInt8) (memory copies : List Bool)
    (s : Socket) : Answer × Socket :=
  if s.writeClosed then (.fails SysErrBrokenPipe, s)
  else if data.length = 0 then (.returns 0, s)
  else if !s.connected then (.fails SysErrNotConnected, s)
  else sendLoop now mayWait (data.length + 1) data 0 memory copies s

/-- The copy loop of `sys_recvfrom`: what is copied, what is left, and whether `copyToUser`
failed, which it does past the first `writable` bytes of the buffer. -/
def recvLoop (length writable : Nat) :
    List (List UInt8) → List UInt8 → List UInt8 × List (List UInt8) × Bool
  | [], copied => (copied, [], false)
  | chunk :: rest, copied =>
    if copied.length < length then
      let n := min chunk.length (length - copied.length)
      if n ≠ 0 ∧ writable < copied.length + n then (copied, chunk :: rest, true)
      else if n < chunk.length then (copied ++ chunk.take n, chunk.drop n :: rest, false)
      else recvLoop length writable rest (copied ++ chunk)
    else (copied, chunk :: rest, false)

/-- `sys_recvfrom` after the wait: the bytes copied out, and the answer. -/
def recvQueuedData (length writable : Nat) (s : Socket) : List UInt8 × Answer × Socket :=
  match recvLoop length writable s.rcv.received [] with
  | (copied, rest, true) =>
    (copied, if copied.length ≠ 0 then .returns copied.length else .fails SysErrInvalid,
      { s with rcv := { s.rcv with received := rest } })
  | (copied, rest, false) =>
    let queued := s.rcv.recvQueued -
      (if copied.length < s.rcv.recvQueued then copied.length else s.rcv.recvQueued)
    (copied, .returns copied.length, tcpSendWindowUpdate
      { s with rcv := { s.rcv with received := rest, recvQueued := queued } })

/-- `sys_recvfrom`: one pass of its loop, to the answer or to the wait. -/
def sysRecv (mayWait : Bool) (length writable : Nat) (s : Socket) : List UInt8 × Answer × Socket :=
  if s.error ≠ 0 ∧ s.rcv.received = [] then ([], takeSocketError s)
  else if s.readClosed ∧ s.rcv.received = [] then ([], .returns 0, s)
  else if length = 0 then ([], .returns 0, s)
  else if s.rcv.received ≠ [] then recvQueuedData length writable s
  else if s.rcv.peerFinSeen then ([], .returns 0, s)
  else ([], if mayWait then .waits else .fails SysErrAgain, s)

inductive ShutdownMode
  | read
  | write
  | both
deriving DecidableEq, Repr

def sysShutdown (how : ShutdownMode) (allocated : Bool) (s : Socket) : Socket :=
  match how with
  | .read => { s with readClosed := true }
  | .write => tcpStartClose now allocated { s with writeClosed := true }
  | .both => tcpStartClose now allocated { s with readClosed := true, writeClosed := true }

/-- `tcpBeginOrphan`; `hardLinger` is `SO_LINGER` with a zero timeout. -/
def tcpBeginOrphan (hardLinger allocated : Bool) (s : Socket) : Option Socket :=
  if s.state = .established ∨ s.state = .closeWait ∨ s.state = .synReceived ∨
      s.state = .finWait1 ∨ s.state = .finWait2 ∨ s.state = .closing ∨ s.state = .lastAck then
    if s.rcv.received ≠ [] ∨ hardLinger then none
    else
      let s := tcpStartClose now allocated s
      some { s with
        orphan := true, readClosed := true, orphanDeadline := now + kTcpOrphanTimeoutMs }
  else none

/-- `socketProcessIcmpError`, for an error about a segment of the connection. -/
def socketProcessIcmpError (tcpSeq : Seq) (error : Nat) (s : Socket) : Socket :=
  if (tcpSeq - s.snd.sendUnacked).toNat > (s.snd.sendMax - s.snd.sendUnacked).toNat then s
  else if error = SysErrMessageSize then s
  else if s.state = .synSent ∨ s.state = .synReceived then tcpAbort error s
  else { s with softError := error }

/-! ## Events -/

/-- `destroySocketObject` when the last handle goes: the connection finishes alone, or the socket
is deleted. -/
def destroySocketObject (hardLinger allocated : Bool) (s : Socket) : Option Socket :=
  if s.orphan then none else tcpBeginOrphan now hardLinger allocated s

def socketTcpTick : Option Socket :=
  let s := tcpTimers now s
  if s.orphan ∧ (s.state = .closed ∨ now ≥ s.orphanDeadline) then none else some s

/-- What can happen to a connection.  A call that waits is an event up to the wait; a send that
wakes up goes on where it was (`resumeSend`), a receive starts its loop again. -/
inductive Event
  | segment (memory : List Bool) (seg : TcpSegmentInfo)
  | recv (mayWait : Bool) (length writable : Nat)
  | send (mayWait : Bool) (data : List UInt8) (memory copies : List Bool)
  | resumeSend (mayWait : Bool) (offset : Nat) (data : List UInt8) (memory copies : List Bool)
  | shutdown (how : ShutdownMode) (allocated : Bool)
  | close (hardLinger allocated : Bool)
  | tick
  | icmp (tcpSeq : Seq) (error : Nat)
  | takeError
  | connect (mayWait : Bool) (dest : Destination)
deriving DecidableEq, Repr

/-- The event on the connection itself. -/
def Event.apply : Event → Option Socket
  | segment memory seg => some (processTcpSegment now memory seg s)
  | recv mayWait length writable => some (sysRecv mayWait length writable s).2.2
  | send mayWait data memory copies => some (sysSend now mayWait data memory copies s).2
  | resumeSend mayWait offset data memory copies =>
    some (sendLoop now mayWait (data.length + 1) data offset memory copies s).2
  | shutdown how allocated => some (sysShutdown now how allocated s)
  | close hardLinger allocated => destroySocketObject now hardLinger allocated s
  | tick => socketTcpTick now s
  | icmp tcpSeq error => some (socketProcessIcmpError tcpSeq error s)
  | takeError => some (takeSocketError s).2
  | connect mayWait dest => some (sysConnect now mayWait dest s).2

/-- An event, with the log of what it sends; nothing is left if the socket is deleted. -/
def Event.run (e : Event) (s : Socket) : Option Socket :=
  e.apply now { s with wire := [] }

/-- The bytes an event gives to the application. -/
def Event.returned : Event → List UInt8
  | recv mayWait length writable => (sysRecv mayWait length writable { s with wire := [] }).1
  | _ => []

end InstantOS.Tcp

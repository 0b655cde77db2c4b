import InstantOS.Net.TcpFrame

/-!
# The receive stream

The peer sends one stream of bytes, cut into segments as it likes.  What the connection has taken
in is at every moment an initial part of that stream, `RCV.NXT` is the number of the byte behind
it, and each segment that is held out of order is a run of the stream further on, inside the
receive window.  In-order data, the trim at both ends, the hold list and the drain loop keep this.
-/

namespace InstantOS.Tcp

open Base List

/-- The bytes taken in: those the application has been given, and those it has not read yet. -/
def taken (returned : List UInt8) (r : Receiver) : List UInt8 := returned ++ r.received.flatten

/-- The position of the stream's first byte: the SYN comes before it. -/
def first (irs : Seq) : Nat := irs.toNat + 1

/-- A segment of the hold list is a run of the stream.  It does not begin before what the
application has read, and it ends inside the window. -/
def Held (stream : List UInt8) (irs : Seq) (count queued : Nat) (h : TcpReassemblySegment) : Prop :=
  h.data ≠ [] ∧ ∃ k, h.seq = seqOf (first irs + k) ∧ h.data <+: stream.drop k ∧
    count ≤ k + queued ∧ k + h.data.length + queued ≤ count + kTcpReceiveBuffer

/-- What is taken in so far is an initial part of the stream. -/
structure InOrder (stream : List UInt8) (irs : Seq) (returned : List UInt8) (r : Receiver) :
    Prop where
  bytes : taken returned r <+: stream
  chunks : ∀ c ∈ r.received, c ≠ []
  next : r.recvNext = seqOf (first irs + (taken returned r).length + if r.peerFinSeen then 1 else 0)
  room : r.recvQueued ≤ kTcpReceiveBuffer

/-- The receive side between two events. -/
structure Receiving (stream : List UInt8) (irs : Seq) (returned : List UInt8) (r : Receiver) :
    Prop extends InOrder stream irs returned r where
  held : ∀ h ∈ r.reasm, Held stream irs (taken returned r).length r.recvQueued h
  ahead : ∀ h ∈ r.reasm, seqLe h.seq r.recvNext = false
  ended : r.peerFinSeen → taken returned r = stream ∧ r.reasm = []

variable {stream : List UInt8} {irs : Seq} {returned : List UInt8} {r : Receiver}

/-! ## Appending -/

/-- The bytes taken in and the bytes queued have grown by the same number. -/
structure Grown (returned : List UInt8) (r r' : Receiver) : Prop where
  amount : ∃ n, (taken returned r').length = (taken returned r).length + n ∧
    r'.recvQueued = r.recvQueued + n
  fin : r'.peerFinSeen = r.peerFinSeen

theorem Grown.refl (r : Receiver) : Grown returned r r := ⟨⟨0, rfl, rfl⟩, rfl⟩

theorem Grown.trans {r r' r'' : Receiver} (h : Grown returned r r') (h' : Grown returned r' r'') :
    Grown returned r r'' := by
  obtain ⟨n, hn, hq⟩ := h.amount
  obtain ⟨m, hm, hq'⟩ := h'.amount
  exact ⟨⟨n + m, by omega, by omega⟩, h'.fin.trans h.fin⟩

/-- A held segment stays one: the right edge of the window does not move. -/
theorem Held.grown {r' : Receiver} {h : TcpReassemblySegment} (hgrown : Grown returned r r')
    (hheld : Held stream irs (taken returned r).length r.recvQueued h) :
    Held stream irs (taken returned r').length r'.recvQueued h := by
  obtain ⟨n, hn, hq⟩ := hgrown.amount
  obtain ⟨hdata, k, hseq, hrun, hlow, hhigh⟩ := hheld
  exact ⟨hdata, k, hseq, hrun, by omega, by omega⟩

theorem taken_append (data : List UInt8) (received : List (List UInt8)) :
    returned ++ (received ++ [data]).flatten = returned ++ received.flatten ++ data := by
  simp

variable {data : List UInt8}

theorem InOrder.append (h : InOrder stream irs returned r)
    (hopen : r.peerFinSeen = false) (hrun : data <+: stream.drop (taken returned r).length)
    (hroom : r.recvQueued + data.length ≤ kTcpReceiveBuffer) (memory : List Bool) :
    InOrder stream irs returned (tcpAppendReceived data memory r).2 ∧
      Grown returned r (tcpAppendReceived data memory r).2 ∧
      (tcpAppendReceived data memory r).2.reasm = r.reasm := by
  unfold tcpAppendReceived
  split
  · exact ⟨h, .refl r, rfl⟩
  rename_i hdata
  dsimp only
  split
  · have hsofar : returned ++ r.received.flatten = stream.take (taken returned r).length :=
      prefix_iff_eq_take.1 h.bytes
    have hlength : (returned ++ (r.received ++ [data]).flatten).length =
        (taken returned r).length + data.length := by
      rw [taken_append, length_append, taken]
    refine ⟨⟨?_, ?_, ?_, hroom⟩, ⟨⟨data.length, hlength, rfl⟩, rfl⟩, rfl⟩
    · change returned ++ (r.received ++ [data]).flatten <+: stream
      rw [taken_append, hsofar, take_append_run hrun]
      exact take_prefix _ stream
    · intro c hc
      rcases mem_append.1 hc with hc | hc
      · exact h.chunks c hc
      · rw [mem_singleton.1 hc]
        exact fun hnil => hdata (by rw [hnil, length_nil])
    · have hnext := h.next
      simp only [hopen, Bool.false_eq_true, if_false, Nat.add_zero] at hnext ⊢
      rw [hnext, ← seqOf_add, Nat.add_assoc]
      exact congrArg (fun n => seqOf (first irs + n)) hlength.symm
  · exact ⟨h, .refl r, rfl⟩

/-! ## The drain loop -/

theorem InOrder.free (h : InOrder stream irs returned r) (x : TcpReassemblySegment) :
    InOrder stream irs returned (tcpFreeReassembly x r) :=
  { h with }

theorem grown_free (x : TcpReassemblySegment) (r : Receiver) :
    Grown returned r (tcpFreeReassembly x r) := ⟨⟨0, rfl, rfl⟩, rfl⟩

section

variable (h : InOrder stream irs returned r) (hopen : r.peerFinSeen = false)

include h hopen

theorem InOrder.next_open : r.recvNext = seqOf (first irs + (taken returned r).length) := by
  have hnext := h.next
  rw [hopen] at hnext
  simpa using hnext

/-- What the comparison with `RCV.NXT` says about a position near the window. -/
theorem InOrder.seqLe_next {k : Nat} (hlow : (taken returned r).length ≤ k + 524288)
    (hhigh : k ≤ (taken returned r).length + 524288) :
    seqLe (seqOf (first irs + k)) r.recvNext = decide (k ≤ (taken returned r).length) := by
  rw [h.next_open hopen, seqLe_seqOf (by omega) (by omega)]
  simp

/-- A held segment that begins at or before `RCV.NXT` and ends behind it continues the stream
once its first bytes are skipped. -/
theorem Held.continues {x : TcpReassemblySegment}
    (hheld : Held stream irs (taken returned r).length r.recvQueued x)
    (hle : seqLe x.seq r.recvNext) :
    let skip := (r.recvNext - x.seq).toNat
    x.data.drop skip <+: stream.drop (taken returned r).length ∧
      r.recvQueued + (x.data.drop skip).length ≤ kTcpReceiveBuffer := by
  obtain ⟨-, k, hseq, hrun, hlow, hhigh⟩ := hheld
  have hroom := h.room
  simp only [kTcpReceiveBuffer] at hroom hhigh ⊢
  rw [hseq, h.seqLe_next hopen (by omega) (by omega)] at hle
  have hk : k ≤ (taken returned r).length := of_decide_eq_true hle
  have hskip : (r.recvNext - x.seq).toNat = (taken returned r).length - k := by
    rw [h.next_open hopen, hseq, toNat_seqOf_sub (by omega) (by omega)]
    omega
  rw [hskip]
  constructor
  · have hdrop := run_drop hrun ((taken returned r).length - k)
    rwa [Nat.add_sub_cancel' hk] at hdrop
  · rw [length_drop]
    omega

end

section

variable (held : List TcpReassemblySegment) (d : Drain)

include held d

/-- One pass keeps everything, and the segments it leaves are still held. -/
theorem drainPass_spec (h : InOrder stream irs returned d.rcv) (hopen : d.rcv.peerFinSeen = false)
    (hheld : ∀ x ∈ held, Held stream irs (taken returned d.rcv).length d.rcv.recvQueued x) :
    InOrder stream irs returned (drainPass held d).2.rcv ∧
      Grown returned d.rcv (drainPass held d).2.rcv ∧
      ∀ x ∈ (drainPass held d).1, Held stream irs (taken returned (drainPass held d).2.rcv).length
          (drainPass held d).2.rcv.recvQueued x := by
  induction held generalizing d with
  | nil => exact ⟨h, .refl _, by simp [drainPass]⟩
  | cons x rest ih =>
    have hrest : ∀ y ∈ rest, Held stream irs (taken returned d.rcv).length d.rcv.recvQueued y :=
      fun y hy => hheld y (mem_cons_of_mem x hy)
    unfold drainPass
    dsimp only
    split
    · obtain ⟨h1, h2, h3⟩ := ih { d with rcv := tcpFreeReassembly x d.rcv, progress := true }
        (h.free x) hopen hrest
      exact ⟨h1, (grown_free x d.rcv).trans h2, h3⟩
    split
    · rename_i hle
      obtain ⟨hrun, hroom⟩ := (hheld x mem_cons_self).continues h hopen hle
      obtain ⟨horder, hgrown, -⟩ := h.append hopen hrun hroom d.memory
      have hgrown' := hgrown.trans (grown_free x _)
      obtain ⟨h1, h2, h3⟩ := ih ⟨tcpFreeReassembly x _, _, true, true⟩ (horder.free x)
        (hgrown'.fin.trans hopen) fun y hy => (hrest y hy).grown hgrown'
      exact ⟨h1, hgrown'.trans h2, h3⟩
    · obtain ⟨h1, h2, h3⟩ := ih d h hopen hrest
      refine ⟨h1, h2, fun y hy => ?_⟩
      rcases mem_cons.1 hy with rfl | hy
      · exact (hheld y mem_cons_self).grown h2
      · exact h3 y hy

theorem drainPass_length : (drainPass held d).1.length ≤ held.length := by
  induction held generalizing d with
  | nil => simp [drainPass]
  | cons x rest ih =>
    unfold drainPass
    dsimp only
    split
    · exact (ih _).trans (Nat.le_succ _)
    · split
      · exact (ih _).trans (Nat.le_succ _)
      · exact Nat.succ_le_succ (ih _)

theorem drainPass_progress_of (h : d.progress) : (drainPass held d).2.progress := by
  induction held generalizing d with
  | nil => exact h
  | cons x rest ih =>
    unfold drainPass
    dsimp only
    split
    · exact ih _ rfl
    · split
      · exact ih _ rfl
      · exact ih _ h

/-- A pass without progress changes nothing, and every segment it leaves is ahead of `RCV.NXT`;
a pass with progress shortens the list. -/
theorem drainPass_progress (h : d.progress = false) : ((drainPass held d).2.progress = false →
      drainPass held d = (held, d) ∧ ∀ x ∈ held, seqLe x.seq d.rcv.recvNext = false) ∧
    ((drainPass held d).2.progress → (drainPass held d).1.length < held.length) := by
  induction held generalizing d with
  | nil => simp [drainPass, h]
  | cons x rest ih =>
    unfold drainPass
    dsimp only
    split
    · refine ⟨fun hno => ?_, fun _ => Nat.lt_succ_of_le (drainPass_length rest _)⟩
      rw [drainPass_progress_of rest _ rfl] at hno
      cases hno
    split
    · refine ⟨fun hno => ?_, fun _ => Nat.lt_succ_of_le (drainPass_length rest _)⟩
      rw [drainPass_progress_of rest _ rfl] at hno
      cases hno
    rename_i hle
    obtain ⟨hno, hyes⟩ := ih d h
    refine ⟨fun hp => ?_, fun hp => Nat.succ_lt_succ (hyes hp)⟩
    obtain ⟨heq, hahead⟩ := hno hp
    rw [heq]
    refine ⟨rfl, fun y hy => ?_⟩
    rcases mem_cons.1 hy with rfl | hy
    · exact Bool.eq_false_iff.2 hle
    · exact hahead y hy

end

theorem drainLoop_spec (fuel : Nat) (memory : List Bool) (r : Receiver)
    (hfuel : r.reasm.length < fuel) (h : InOrder stream irs returned r)
    (hopen : r.peerFinSeen = false)
    (hheld : ∀ x ∈ r.reasm, Held stream irs (taken returned r).length r.recvQueued x) :
    Receiving stream irs returned (drainLoop fuel memory r).2 ∧
      Grown returned r (drainLoop fuel memory r).2 := by
  induction fuel generalizing memory r with
  | zero => omega
  | succ fuel ih =>
    obtain ⟨horder, hgrown, hleft⟩ := drainPass_spec r.reasm ⟨r, memory, false, false⟩ h hopen hheld
    obtain ⟨hno, hyes⟩ := drainPass_progress r.reasm ⟨r, memory, false, false⟩ rfl
    unfold drainLoop
    dsimp only
    split_ifs with hp
    · have hshort := hyes hp
      obtain ⟨h1, h2⟩ := ih (drainPass r.reasm ⟨r, memory, false, false⟩).2.memory
        { (drainPass r.reasm ⟨r, memory, false, false⟩).2.rcv with
          reasm := (drainPass r.reasm ⟨r, memory, false, false⟩).1 }
        (by dsimp only; omega) { horder with }
        (hgrown.fin.trans hopen) hleft
      exact ⟨h1, hgrown.trans ⟨h2.amount, h2.fin⟩⟩
    · obtain ⟨heq, hahead⟩ := hno (Bool.eq_false_iff.2 hp)
      rw [heq]
      refine ⟨⟨{ h with }, hheld, hahead, fun hfin => ?_⟩, .refl r⟩
      simp [hopen] at hfin

/-! ## Incoming data -/

theorem tcpReceiveSpace_eq (r : Receiver) :
    tcpReceiveSpace r = kTcpReceiveBuffer - r.recvQueued := by
  unfold tcpReceiveSpace
  split <;> omega

/-- A segment that begins ahead of `RCV.NXT`, inside the window, is held. -/
theorem Receiving.buffer (h : Receiving stream irs returned r) (hopen : r.peerFinSeen = false)
    {offset : Nat} (hdata : data ≠ []) (hoffset : offset ≠ 0)
    (hrun : data <+: stream.drop ((taken returned r).length + offset))
    (hroom : offset + data.length ≤ tcpReceiveSpace r) (memory : List Bool) :
    Receiving stream irs returned
      (tcpBufferOutOfOrder (r.recvNext + BitVec.ofNat 32 offset) data memory r) := by
  unfold tcpBufferOutOfOrder
  split
  · exact h
  split
  · have hqueued := h.room
    have hspace := tcpReceiveSpace_eq r
    have hseq : r.recvNext + BitVec.ofNat 32 offset =
        seqOf (first irs + ((taken returned r).length + offset)) := by
      rw [h.next_open hopen, ← seqOf_add, Nat.add_assoc]
    simp only [kTcpReceiveBuffer] at hqueued hspace
    refine ⟨{ h with }, ?_, ?_, fun hfin => ?_⟩
    · intro x hx
      rcases mem_cons.1 hx with rfl | hx
      · refine ⟨hdata, (taken returned r).length + offset, hseq, hrun, ?_, ?_⟩
        · change (taken returned r).length ≤ _ + r.recvQueued
          omega
        · change _ + data.length + r.recvQueued ≤ (taken returned r).length + kTcpReceiveBuffer
          simp only [kTcpReceiveBuffer]
          omega
      · exact h.held x hx
    · intro x hx
      rcases mem_cons.1 hx with rfl | hx
      · rw [hseq, h.seqLe_next hopen (by omega) (by omega)]
        exact decide_eq_false (by omega)
      · exact h.ahead x hx
    · simp [hopen] at hfin
  · exact h

/-- In-order data is appended, and the hold list drained behind it. -/
theorem Receiving.accept (h : Receiving stream irs returned r) (hopen : r.peerFinSeen = false)
    (hrun : data <+: stream.drop (taken returned r).length)
    (hroom : data.length ≤ tcpReceiveSpace r) (memory : List Bool) :
    let appended := tcpAppendReceived data memory r
    Receiving stream irs returned (tcpDrainReassembly appended.1 appended.2).2 ∧
      Grown returned r (tcpDrainReassembly appended.1 appended.2).2 := by
  have hqueued := h.room
  have hspace := tcpReceiveSpace_eq r
  obtain ⟨horder, hgrown, hreasm⟩ := h.append hopen hrun (by omega) memory
  obtain ⟨hresult, hgrown'⟩ := drainLoop_spec
    ((tcpAppendReceived data memory r).2.reasm.length + 1) (tcpAppendReceived data memory r).1
    (tcpAppendReceived data memory r).2 (Nat.lt_succ_self _) horder (hgrown.fin.trans hopen)
    fun x hx => (h.held x (hreasm ▸ hx)).grown hgrown
  exact ⟨hresult, hgrown.trans hgrown'⟩

/-- The part of `tcpReceiveData` behind the trim on the left, for data that is the run of the
stream its distance from `RCV.NXT` says, if that distance is inside the window at all. -/
theorem Receiving.trimmed {s : Socket} (h : Receiving stream irs returned s.rcv)
    (hopen : s.rcv.peerFinSeen = false) {seq : Seq} (hdata : data ≠ [])
    (hrun : (seq - s.rcv.recvNext).toNat < tcpReceiveSpace s.rcv →
      data <+: stream.drop ((taken returned s.rcv).length + (seq - s.rcv.recvNext).toNat))
    (now : Nat) (memory : List Bool) (psh : Bool) :
    Receiving stream irs returned (receiveTrimmed now memory psh seq data s).rcv ∧
      Grown returned s.rcv (receiveTrimmed now memory psh seq data s).rcv := by
  unfold receiveTrimmed
  dsimp only
  split
  · exact ⟨h, .refl _⟩
  have hinside : (seq - s.rcv.recvNext).toNat < tcpReceiveSpace s.rcv := by omega
  have hcut : ∃ cut, cut <+: stream.drop
        ((taken returned s.rcv).length + (seq - s.rcv.recvNext).toNat) ∧ cut ≠ [] ∧
      (seq - s.rcv.recvNext).toNat + cut.length ≤ tcpReceiveSpace s.rcv ∧
      (if (seq - s.rcv.recvNext).toNat + data.length > tcpReceiveSpace s.rcv
        then data.take (tcpReceiveSpace s.rcv - (seq - s.rcv.recvNext).toNat) else data) = cut := by
    split
    · refine ⟨_, ( take_prefix _ data).trans (hrun hinside), ne_nil_of_length_pos ?_, ?_, rfl⟩
      · rw [length_take]
        omega
      · rw [length_take]
        omega
    · exact ⟨data, hrun hinside, hdata, by omega, rfl⟩
  obtain ⟨cut, hcutRun, hcutData, hcutRoom, hcutEq⟩ := hcut
  rw [hcutEq]
  split
  · rename_i hoffset
    have hseq : s.rcv.recvNext + BitVec.ofNat 32 (seq - s.rcv.recvNext).toNat = seq := by
      rw [BitVec.ofNat_toNat, BitVec.setWidth_eq, BitVec.add_comm, BitVec.sub_add_cancel]
    have hbuffer := h.buffer hopen hcutData hoffset hcutRun hcutRoom memory
    rw [hseq] at hbuffer
    refine ⟨hbuffer, ?_⟩
    unfold tcpBufferOutOfOrder
    split
    · exact .refl _
    · split
      · exact ⟨⟨0, rfl, rfl⟩, rfl⟩
      · exact .refl _
  · have hzero : (seq - s.rcv.recvNext).toNat = 0 := by omega
    rw [hzero] at hcutRun hcutRoom
    rw [acknowledgeData_rcv]
    exact h.accept hopen hcutRun (by omega) memory

/-- A segment is not a repetition from more than `2^32` bytes back, nor so far ahead: the
distance of its bytes to `RCV.NXT` can be read off their numbers. -/
def Timely (count k length : Nat) : Prop :=
  count + kTcpReceiveBuffer ≤ k + 4294967296 ∧ k + length < count + 4294967296
deriving Decidable

theorem Receiving.receiveData {s : Socket} (h : Receiving stream irs returned s.rcv)
    (hopen : s.rcv.peerFinSeen = false) {seg : TcpSegmentInfo} {k : Nat}
    (hseq : seg.seq = seqOf (first irs + k)) (hrun : seg.payload <+: stream.drop k)
    (hpayload : seg.payload ≠ [])
    (htimely : Timely (taken returned s.rcv).length k seg.payload.length)
    (now : Nat) (memory : List Bool) :
    Receiving stream irs returned (tcpReceiveData now memory seg s).rcv ∧
      Grown returned s.rcv (tcpReceiveData now memory seg s).rcv := by
  have hnext := h.next_open hopen
  have hspace := tcpReceiveSpace_eq s.rcv
  obtain ⟨hold, hnew⟩ := htimely
  unfold tcpReceiveData
  rw [seqLt_eq]
  have hdiff : (seg.seq - s.rcv.recvNext).toNat =
      (4294967296 - (first irs + (taken returned s.rcv).length) % 4294967296 +
        (first irs + k) % 4294967296) % 4294967296 := by
    rw [hseq, hnext, BitVec.toNat_sub, toNat_seqOf, toNat_seqOf]
  have hback : (s.rcv.recvNext - seg.seq).toNat = (4294967296 - (first irs + k) % 4294967296 +
        (first irs + (taken returned s.rcv).length) % 4294967296) % 4294967296 := by
    rw [hseq, hnext, BitVec.toNat_sub, toNat_seqOf, toNat_seqOf]
  split
  · rename_i hlt
    have hlt := of_decide_eq_true hlt
    dsimp only
    split
    · exact ⟨h, .refl _⟩
    -- some of it is new, so it begins at most `2^31` bytes back
    have hk : k ≤ (taken returned s.rcv).length := by omega
    have hamount : (s.rcv.recvNext - seg.seq).toNat = (taken returned s.rcv).length - k := by
      omega
    have htrim : seg.seq + BitVec.ofNat 32 (s.rcv.recvNext - seg.seq).toNat = s.rcv.recvNext := by
      rw [hamount, hseq, ← seqOf_add, hnext, Nat.add_assoc, Nat.add_sub_cancel' hk]
    rw [htrim]
    refine h.trimmed hopen ?_ (fun _ => ?_) now memory _
    · apply ne_nil_of_length_pos
      rw [length_drop]
      omega
    · have hdrop := run_drop hrun (s.rcv.recvNext - seg.seq).toNat
      rw [hamount, Nat.add_sub_cancel' hk] at hdrop
      rw [hamount]
      simpa using hdrop
  · refine h.trimmed hopen hpayload (fun hinside => ?_) now memory _
    have hk : (taken returned s.rcv).length + (seg.seq - s.rcv.recvNext).toNat = k := by omega
    rw [hk]
    exact hrun

section

variable (h : Receiving stream irs returned r)

include h

/-- What is held begins past the bytes taken in. -/
theorem Receiving.held_ahead (hopen : r.peerFinSeen = false)
    {x : TcpReassemblySegment} (hx : x ∈ r.reasm) :
    x.data ≠ [] ∧ ∃ k, x.seq = seqOf (first irs + k) ∧ x.data <+: stream.drop k ∧
      (taken returned r).length < k ∧
      k + x.data.length + r.recvQueued ≤ (taken returned r).length + kTcpReceiveBuffer := by
  obtain ⟨hdata, k, hseq, hrun, hlow, hhigh⟩ := h.held x hx
  refine ⟨hdata, k, hseq, hrun, ?_, hhigh⟩
  have hroom := h.room
  have hahead := h.ahead x hx
  simp only [kTcpReceiveBuffer] at hroom hhigh
  rw [hseq, h.seqLe_next hopen (by omega) (by omega)] at hahead
  exact Nat.lt_of_not_le (of_decide_eq_false hahead)

/-! ## The peer's FIN -/

/-- With everything before it taken in, the FIN ends the stream. -/
theorem Receiving.finish (hopen : r.peerFinSeen = false)
    (hall : (taken returned r).length = stream.length) : Receiving stream irs returned
      { r with recvNext := r.recvNext + 1, peerFinSeen := true } := by
  have htaken : taken returned r = stream := h.bytes.eq_of_length hall
  have hempty : r.reasm = [] := by
    apply eq_nil_iff_forall_not_mem.2
    intro x hx
    obtain ⟨hdata, k, -, hrun, hk, -⟩ := h.held_ahead hopen hx
    rcases run_length hrun with hlength | hnil
    · omega
    · exact hdata hnil
  refine ⟨{ h with next := ?_ }, ?_, ?_, fun _ => ⟨htaken, hempty⟩⟩
  · change r.recvNext + 1 = seqOf (first irs + (taken returned r).length + 1)
    rw [h.next_open hopen, seqOf_succ]
  · simp [hempty]
  · simp [hempty]

/-- A release of the hold list. -/
theorem Receiving.dropHeld :
    Receiving stream irs returned { r with reasm := [] } :=
  ⟨{ h with }, by simp, by simp, fun hfin => ⟨(h.ended hfin).1, rfl⟩⟩

end

end InstantOS.Tcp

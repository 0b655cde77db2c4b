import InstantOS.Net.TcpQueue

/-!
# Transmitting from the queue

What `tcpOutput` and the retransmissions put on the wire are bytes of the cells at their
numbers, and new data goes past the peer's window only if nothing is in flight.  After
`tcpOutput` the timer runs whenever there is something left in the queue.
-/

namespace InstantOS.Tcp

open Base TcpState
open List hiding beq_eq_decide

variable {isn : Seq} {cells : List Cell} {k c u n m : Nat} {t : Sender} {s : Socket}
  {queue : List TcpSendSegment}

/-! ## What is on the wire -/

/-- The data of a segment on the wire is what the application queued for its numbers, and new
data stays in the window of the peer unless nothing is in flight. -/
structure Honest (isn : Seq) (cells : List Cell) (u : Nat) (x : Transmission) : Prop where
  content : x.data ≠ [] → ∃ p, x.seq = seqOf (isn.toNat + p) ∧
    x.data.map .byte <+: cells.drop p ∧ u ≤ p + 262144
  window : x.data ≠ [] → seqGt (x.seq + BitVec.ofNat 32 x.data.length) x.highest = true →
    (x.seq + BitVec.ofNat 32 x.data.length - x.unacked).toNat ≤ x.peerWindow ∨ x.unacked = x.highest

def Wired (isn : Seq) (cells : List Cell) (u : Nat) (s : Socket) : Prop :=
  ∀ x ∈ s.wire, Honest isn cells u x

/-- A segment without data. -/
theorem Wired.transmit (h : Wired isn cells u s) (seq : Seq) (flags : Flags) (again : Bool) :
    Wired isn cells u (tcpTransmit seq flags [] again s) := by
  intro x hx
  rcases mem_append.1 hx with hx | hx
  · exact h x hx
  · rw [mem_singleton.1 hx]
    exact ⟨fun hdata => absurd rfl hdata, fun hdata => absurd rfl hdata⟩

theorem Wired.control (h : Wired isn cells u s) (flags : Flags) :
    Wired isn cells u (tcpSendControl flags s) :=
  h.transmit _ flags false

theorem segCells_of_data (seg : TcpSendSegment) (hdata : seg.data ≠ []) :
    segCells seg = seg.data.map .byte ∧ tcpSegmentSpan seg = seg.data.length := by
  have hlength : seg.data.length ≠ 0 := by simpa using hdata
  exact ⟨if_pos hlength, if_pos hlength⟩

variable {seg : TcpSendSegment} {rest queue' : List TcpSendSegment}

/-- A segment of the queue is sent: it is old, or nothing is in flight, or it fits the window. -/
theorem Wired.segment (h : Wired isn cells u s) (hn : Numbered isn cells u n m s.snd)
    (hseq : seg.seq = seqOf (isn.toNat + c))
    (hcells : segCells seg <+: cells.drop c) (hnear : u ≤ c + 262144)
    (hend : c + tcpSegmentSpan seg ≤ cells.length)
    (hfits : seg.data ≠ [] → c + tcpSegmentSpan seg ≤ m ∨ u = m ∨
      u ≤ c + tcpSegmentSpan seg ∧ c + tcpSegmentSpan seg ≤ u + s.snd.peerWindow) :
    Wired isn cells u (tcpSendSegment seg s) := by
  intro x hx
  rcases mem_append.1 hx with hx | hx
  · exact h x hx
  have hroom := hn.room_lt
  obtain ⟨hle, hle', hlem⟩ := hn.order
  rw [mem_singleton.1 hx]
  refine ⟨fun hdata => ⟨c, hseq, ?_, hnear⟩, fun hdata hnew => ?_⟩
  · rw [← (segCells_of_data _ hdata).1]
    exact hcells
  · obtain ⟨-, hspan⟩ := segCells_of_data _ hdata
    dsimp only at hnew ⊢
    rw [hseq, ← seqOf_add] at hnew ⊢
    rw [hn.highest, seqGt_seqOf (by omega) (by omega)] at hnew
    have hnew := of_decide_eq_true hnew
    rw [hn.highest, hn.unacked]
    rcases hfits hdata with hold | hidle | ⟨hlow, hwindow⟩
    · omega
    · exact .inr (by rw [hidle])
    · left
      rw [toNat_seqOf_sub (by omega) (by omega)]
      omega

/-! ## Sending again -/

/-- What a transmission leaves of a segment as it was. -/
def TcpSendSegment.body (seg : TcpSendSegment) : Seq × Flags × List UInt8 :=
  (seg.seq, seg.flags, seg.data)

/-- The same segments, some of them sent once more. -/
def Resent (queue queue' : List TcpSendSegment) : Prop :=
  queue'.map TcpSendSegment.body = queue.map TcpSendSegment.body

theorem Resent.refl (queue : List TcpSendSegment) : Resent queue queue := rfl

theorem Resent.head (now : Nat) (seg : TcpSendSegment) {rest' : List TcpSendSegment}
    (h : Resent rest rest') : Resent (seg :: rest) (seg.sent now :: rest') := by
  rw [Resent, map_cons, h]
  rfl

theorem Resent.append (before : List TcpSendSegment) {rest' : List TcpSendSegment}
    (h : Resent rest rest') : Resent (before ++ rest) (before ++ rest') := by
  rw [Resent, map_append, map_append, h]

theorem Resent.key (h : Resent queue queue') :
    queue'.map TcpSendSegment.key = queue.map TcpSendSegment.key := by
  have hkey : ∀ l : List TcpSendSegment, l.map TcpSendSegment.key =
      (l.map TcpSendSegment.body).map fun body =>
        (body.1, segCells { seq := body.1, flags := body.2.1, data := body.2.2 },
          body.2.1.fin) := by
    intro l
    rw [map_map]
    rfl
  rw [hkey, hkey, h]

theorem Resent.eq_nil (h : Resent queue queue') : queue' = [] ↔ queue = [] := by
  rw [← map_eq_nil_iff, h, map_eq_nil_iff]

theorem Resent.flags (h : Resent queue queue')
    {seg' : TcpSendSegment} (hmem : seg' ∈ queue') : ∃ seg ∈ queue, seg'.flags = seg.flags := by
  have hbody : seg'.body ∈ queue.map TcpSendSegment.body := h ▸ mem_map_of_mem hmem
  obtain ⟨seg, hseg, heq⟩ := mem_map.1 hbody
  exact ⟨seg, hseg, congrArg (fun body => body.2.1) heq.symm⟩

variable {closed : Prop}

theorem Sending.resent (h : Sending isn cells u n m closed t) (hresent : Resent t.queue queue') :
    Sending isn cells u n m closed { t with queue := queue' } := by
  refine ⟨h.toNumbered.setQueue queue', ?_, ?_, ?_, ?_⟩
  · intro hclosed
    obtain ⟨k, hk⟩ := h.backlog hclosed
    exact ⟨k, hk.congr hresent.key⟩
  · intro hclosed
    exact hresent.eq_nil.2 (h.gone hclosed)
  · intro seg' hseg' hfin
    obtain ⟨seg, hseg, hflags⟩ := hresent.flags hseg'
    exact h.finQueued seg hseg (hflags ▸ hfin)
  · intro hacked
    exact ⟨(h.finAcked hacked).1, hresent.eq_nil.2 (h.finAcked hacked).2⟩

/-- The connection in the middle of an event: the send side, and what is on the wire. -/
structure Live (isn : Seq) (cells : List Cell) (u n m : Nat) (s : Socket) : Prop where
  sending : Sending isn cells u n m (s.state = .closed) s.snd
  wire : Wired isn cells u s

/-- The first segment of the queue goes out again, or for the first time if nothing is in
flight. -/
theorem Live.sendHead (h : Live isn cells u n m s) (now : Nat) :
    Live isn cells u n m (sendHead now s) ∧ Resent s.snd.queue (sendHead now s).snd.queue ∧
      (Tcp.sendHead now s).snd = { s.snd with queue := (Tcp.sendHead now s).snd.queue } := by
  unfold Tcp.sendHead
  split
  · exact ⟨h, .refl _, rfl⟩
  rename_i seg rest hqueue
  have hresent : Resent s.snd.queue (seg.sent now :: rest) := by
    rw [hqueue]
    exact .head now seg (.refl rest)
  refine ⟨⟨h.sending.resent hresent, ?_⟩, hresent, rfl⟩
  obtain ⟨-, k, hk⟩ := h.sending.first hqueue
  have hpieces := hk.pieces
  have hchain := hpieces.chain
  refine h.wire.segment h.sending.toNumbered hchain.1 ?_ (hk.near (cons_ne_nil _ _))
    hchain.head_le ?_
  · rw [hk.contents]
    exact prefix_append _ _
  · intro _
    have := hk.low
    have := h.sending.unacked_le
    have := h.sending.next_le
    rcases Nat.lt_or_ge k m with hlt | hge
    · exact .inl (hpieces.head hlt)
    · exact .inr (.inl (by omega))

/-! ## Output -/

theorem Numbered.advance (h : Numbered isn cells u n m t) {e : Nat} (hn : n ≤ e)
    (he : e ≤ cells.length) :
    Numbered isn cells u e (max m e) (t.advance (seqOf (isn.toNat + e))) := by
  have hroom := h.room_lt
  obtain ⟨hle, hle', hlem⟩ := h.order
  refine ⟨h.sendSeq, h.unacked, rfl, ?_, by omega, by omega, by omega, h.room, h.rto, h.mss⟩
  change (if seqGt (seqOf (isn.toNat + e)) t.sendMax then seqOf (isn.toNat + e)
    else t.sendMax) = seqOf (isn.toNat + max m e)
  rw [h.highest, seqGt_seqOf (by omega) (by omega)]
  simp only [decide_eq_true_eq]
  split
  · rw [show max m e = e by omega]
  · rw [show max m e = m by omega]

theorem arm_core (now : Nat) (t : Sender) : (t.arm now).core = t.core := by
  unfold Sender.arm
  split <;> rfl

theorem arm_rto (now : Nat) (t : Sender) : (t.arm now).rtoMs = t.rtoMs := by
  unfold Sender.arm
  split <;> rfl

theorem deadline_ne_zero (now : Nat) (h : 0 < t.rtoMs) : now + tcpCurrentRto t ≠ 0 :=
  Nat.ne_of_gt (Nat.lt_of_lt_of_le (tcpCurrentRto_pos h) (Nat.le_add_left _ _))

theorem arm_ne_zero (now : Nat) (h : 0 < t.rtoMs) : (t.arm now).rtxDeadline ≠ 0 := by
  unfold Sender.arm
  split
  · exact deadline_ne_zero now h
  · assumption

theorem arm_peerWindow (now : Nat) (t : Sender) : (t.arm now).peerWindow = t.peerWindow := by
  unfold Sender.arm
  split <;> rfl

theorem Numbered.arm (h : Numbered isn cells u n m t) (now : Nat) :
    Numbered isn cells u n m (t.arm now) :=
  h.congr (arm_core now t) (by rw [arm_rto]; exact h.rto)

/-- Only `SND.NXT`, the highest number sent and the timer have moved. -/
def Moved (t t' : Sender) : Prop :=
  t' = { t with sendNext := t'.sendNext, sendMax := t'.sendMax, rtxDeadline := t'.rtxDeadline }

theorem Moved.trans {t t' t'' : Sender} (h : Moved t t') (h' : Moved t' t'') : Moved t t'' := by
  rw [Moved] at h h' ⊢
  rw [h', h]

theorem moved_arm (now : Nat) (t : Sender) : Moved t (t.arm now) := by
  unfold Sender.arm
  split <;> rfl

theorem Moved.finSent {t t' : Sender} (h : Moved t t') : t'.finSent = t.finSent := by rw [h]
theorem Moved.finAcked {t t' : Sender} (h : Moved t t') : t'.finAcked = t.finAcked := by rw [h]
theorem Moved.inRecovery {t t' : Sender} (h : Moved t t') : t'.inRecovery = t.inRecovery := by
  rw [h]
theorem Moved.recover {t t' : Sender} (h : Moved t t') : t'.recover = t.recover := by rw [h]

/-- Why a segment that is not held back may go. -/
theorem fits_of_not_heldBack (hn : Numbered isn cells u n m s.snd)
    {window : Nat} (hwindow : window ≤ s.snd.peerWindow)
    (hpieces : Pieces isn c m cells.length (seg :: rest)) (hcn : c ≤ n)
    (hfirst : n < c + tcpSegmentSpan seg) (hheld : heldBack window seg s.snd = false)
    (hdata : seg.data ≠ []) : c + tcpSegmentSpan seg ≤ m ∨ u = m ∨
      u ≤ c + tcpSegmentSpan seg ∧ c + tcpSegmentSpan seg ≤ u + s.snd.peerWindow := by
  have hroom := hn.room_lt
  obtain ⟨hle, hle', -⟩ := hn.order
  have hend := hpieces.chain.head_le
  rcases Nat.lt_or_ge c m with hlt | hge
  · exact .inl (hpieces.head hlt)
  have hlength : seg.data.length ≠ 0 := by simpa using hdata
  have hstart : tcpSegmentEnd seg = seqOf (isn.toNat + (c + tcpSegmentSpan seg)) :=
    hpieces.chain.head_end
  simp only [heldBack, hlength, decide_false, Bool.false_and, Bool.not_false, Bool.true_and,
    Bool.and_eq_false_iff, Bool.or_eq_false_iff, decide_eq_false_iff_not,
    bne_eq_false_iff_eq] at hheld
  rcases hheld with hshort | ⟨hidle, -⟩
  · rw [hstart, hn.unacked, toNat_seqOf_sub (by omega) (by omega)] at hshort
    exact .inr (.inr ⟨by omega, by omega⟩)
  · rw [hn.next, hn.unacked, seqOf_inj (by omega) (by omega)] at hidle
    exact .inr (.inl (by omega))

/-- The loop of `tcpOutput` over the segments behind `before`. -/
theorem outputLoop_spec (now window : Nat) (segs before : List TcpSendSegment)
    (hn : Numbered isn cells u n m s.snd) (hbefore : Covers isn k before c)
    (hpieces : Pieces isn k m cells.length (before ++ segs)) (hcn : c ≤ n)
    (hsegs : Covers isn c segs cells.length)
    (hfirst : ∀ seg rest, segs = seg :: rest → n < c + tcpSegmentSpan seg)
    (hcontents : cells.drop c = segs.flatMap segCells) (hnear : u ≤ c + 262144)
    (hwindow : window ≤ s.snd.peerWindow) (hwire : Wired isn cells u s) :
    ∃ n' m', Numbered isn cells u n' m' (outputLoop now window segs s).2.snd ∧ m ≤ m' ∧
      Pieces isn k m' cells.length (before ++ (outputLoop now window segs s).1) ∧
      Resent segs (outputLoop now window segs s).1 ∧
      Wired isn cells u (outputLoop now window segs s).2 ∧
      Moved s.snd (outputLoop now window segs s).2.snd ∧ (segs ≠ [] ∨ s.snd.rtxDeadline ≠ 0 →
        (outputLoop now window segs s).2.snd.rtxDeadline ≠ 0) := by
  induction segs generalizing before n m c s with
  | nil => exact ⟨n, m, hn, le_rfl, hpieces, .refl _, hwire, rfl, fun h => h.resolve_left (by simp)⟩
  | cons seg rest ih =>
    rw [outputLoop]
    split
    · exact ⟨n, m, hn.arm now, le_rfl, hpieces, .refl _, hwire, moved_arm now s.snd,
        fun _ => arm_ne_zero now hn.rto⟩
    rename_i hheld
    have hfirst := hfirst seg rest rfl
    have hend := hsegs.head_le
    have hle := hn.next_le
    have hrest := hpieces.drop hbefore (by omega)
    have hadvanced := hn.advance (by omega) hend
    have hstart : tcpSegmentEnd seg = seqOf (isn.toNat + (c + tcpSegmentSpan seg)) := hsegs.head_end
    have hresent : Resent (before ++ seg :: rest) (before ++ [seg.sent now] ++ rest) := by
      rw [append_assoc]
      exact .append before (.head now seg (.refl rest))
    have hmarked : Pieces isn k (max m (c + tcpSegmentSpan seg)) cells.length
        (before ++ [seg.sent now] ++ rest) := by
      refine .congr hresent.key ?_
      rcases Nat.le_total m (c + tcpSegmentSpan seg) with hm | hm
      · rw [Nat.max_eq_right hm]
        exact hbefore.split hsegs
      · rw [Nat.max_eq_left hm]
        exact hpieces
    have hdrop : cells.drop (c + tcpSegmentSpan seg) = rest.flatMap segCells := by
      rw [← drop_drop, hcontents, flatMap_cons, ← length_segCells, drop_left]
    have hsent : Wired isn cells u (tcpSendSegment seg s) := by
      refine hwire.segment hn hsegs.1 ?_ hnear hend
        (fits_of_not_heldBack hn hwindow hrest hcn hfirst (Bool.eq_false_iff.2 hheld))
      rw [hcontents]
      exact prefix_append _ _
    obtain ⟨n', m', h1, h2, h3, h4, h5, h6, h7⟩ := ih
      (s := (tcpSendSegment seg s).setSnd ((s.snd.advance (tcpSegmentEnd seg)).arm now))
      (before ++ [seg.sent now]) (by rw [hstart]; exact hadvanced.arm now)
      (hbefore.append ⟨hsegs.1, hsegs.2.1, hsegs.2.2.1, rfl⟩) hmarked le_rfl hsegs.2.2.2
      (fun x tail htail => by
        have hpos := hsegs.2.2.2
        rw [htail] at hpos
        have := hpos.2.1
        omega)
      hdrop (by omega) (by rw [setSnd_snd, arm_peerWindow]; exact hwindow) hsent
    refine ⟨n', m', h1, by omega, by rw [append_assoc] at h3; exact h3, .head now seg h4, h5,
      ?_, fun _ => h7 (.inr (arm_ne_zero now ?_))⟩
    · refine .trans ?_ ((moved_arm now _).trans h6)
      rfl
    · exact hn.rto

/-- The states of the handshake. -/
def TcpState.opening (state : TcpState) : Bool := state = .synSent || state = .synReceived

theorem TcpState.opening_iff {state : TcpState} :
    state.opening ↔ state = .synSent ∨ state = .synReceived := by
  simp [opening]

theorem TcpState.not_closed {state : TcpState} (h : state.sends ∨ state.opening) :
    ¬ state = .closed := by
  rintro rfl
  rcases h with h | h <;> cases h

/-- New positions for the same segments. -/
theorem Sending.moved {t' : Sender} {n' m' : Nat}
    (h : Sending isn cells u n m False t) (hk : Queued isn cells k u m t.queue)
    (hmoved : Moved t t') (hn : Numbered isn cells u n' m' t') (hresent : Resent t.queue queue')
    (hpieces : Pieces isn k m' cells.length queue') :
    Sending isn cells u n' m' False { t' with queue := queue' } := by
  have hq := hk.congr hresent.key
  refine ⟨hn.setQueue queue', fun _ => ⟨k, hpieces, hq.low, hq.head, hq.contents, hq.finLast⟩,
    False.elim, ?_, ?_⟩
  · intro seg' hseg' hfin
    obtain ⟨seg, hseg, hflags⟩ := hresent.flags hseg'
    exact hmoved.finSent.trans (h.finQueued seg hseg (hflags ▸ hfin))
  · intro hacked
    obtain ⟨hsent, hnil⟩ := h.finAcked (hmoved.finAcked.symm.trans hacked)
    exact ⟨hmoved.finSent.trans hsent, hresent.eq_nil.2 hnil⟩

theorem Sending.open_iff (hopen : ¬ closed) :
    Sending isn cells u n m closed t ↔ Sending isn cells u n m False t := by
  have hclosed : closed = False := by simpa using hopen
  rw [hclosed]

/-- What `tcpOutput` does, with the positions it reaches. -/
structure Output (isn : Seq) (cells : List Cell) (u n m n' m' : Nat) (s s' : Socket) : Prop where
  live : Live isn cells u n' m' s'
  highest : m ≤ m'
  resent : Resent s.snd.queue s'.snd.queue
  finSent : s'.snd.finSent = s.snd.finSent
  inRecovery : s'.snd.inRecovery = s.snd.inRecovery
  recover : s'.snd.recover = s.snd.recover
  timer : s.snd.rtxDeadline ≠ 0 → s'.snd.rtxDeadline ≠ 0
  armed : s.state.sends = true → n < cells.length → s.snd.queue ≠ [] → s'.snd.rtxDeadline ≠ 0
  opened : s.state.opening = true → n = u → s.snd.queue ≠ [] → s'.snd.rtxDeadline ≠ 0 ∧ u < m'

section

variable (h : Live isn cells u n m s)

include h

/-- Nothing to do. -/
theorem Output.refl (hsends : s.state.sends = false)
    (hopening : s.state.opening → n = u → s.snd.queue = []) : Output isn cells u n m n m s s :=
  ⟨h, le_rfl, .refl _, rfl, rfl, rfl, id, by simp [hsends],
    fun hstate hn hne => absurd (hopening hstate hn) hne⟩

/-- The SYN goes out, for the first time or again. -/
theorem Live.outputSyn {now : Nat} (hqueue : s.snd.queue = seg :: rest)
    (hstate : s.state.opening) (hnext : n = u) :
    ∃ n' m', Output isn cells u n m n' m' s ((tcpSendSegment seg s).setSnd
      { (s.snd.advance (tcpSegmentEnd seg)).arm now with queue := seg.sent now :: rest }) := by
  have hopen := not_closed (.inr hstate)
  have hsending := (Sending.open_iff hopen).1 h.sending
  obtain ⟨k, hk⟩ := hsending.backlog not_false
  have hpieces := hk.pieces
  rw [hqueue] at hpieces
  have hchain := hpieces.chain
  have hstart : tcpSegmentEnd seg = seqOf (isn.toNat + (k + tcpSegmentSpan seg)) := hchain.head_end
  have hhead := hk.head seg rest hqueue
  have hresent : Resent s.snd.queue (seg.sent now :: rest) := by
    rw [hqueue]
    exact .head now seg (.refl rest)
  have hmoved : Moved s.snd ((s.snd.advance (tcpSegmentEnd seg)).arm now) := by
    refine .trans ?_ (moved_arm now _)
    rfl
  have hadvanced := h.sending.toNumbered.advance (by omega)
    hchain.head_le
  have hmarked : Pieces isn k (max m (k + tcpSegmentSpan seg)) cells.length (seg :: rest) := by
    rcases Nat.le_total m (k + tcpSegmentSpan seg) with hm | hm
    · rw [Nat.max_eq_right hm]
      have hnone : Covers isn k [] k := rfl
      exact Chain.split hnone hchain
    · rw [Nat.max_eq_left hm]
      exact hpieces
  have hwire := (h.sendHead now).1.wire
  rw [Tcp.sendHead, hqueue] at hwire
  refine ⟨_, _, ⟨⟨(Sending.open_iff hopen).2 (hsending.moved hk hmoved
    (by rw [hstart]; exact hadvanced.arm now) hresent (hmarked.congr (hqueue ▸ hresent.key))),
      hwire⟩,
    Nat.le_max_left _ _, hresent, hmoved.finSent, hmoved.inRecovery,
    hmoved.recover, fun _ => ?_, ?_, fun _ _ _ => ?_⟩⟩
  · exact arm_ne_zero now h.sending.rto
  · rcases opening_iff.1 hstate with hs | hs <;> simp [hs, sends]
  · exact ⟨arm_ne_zero now h.sending.rto, by omega⟩

/-- Past the handshake. -/
theorem Live.outputData (now : Nat) (hstate : s.state.sends) :
    ∃ n' m', Output isn cells u n m n' m' s (tcpOutput now s) := by
  have hopen := not_closed (.inl hstate)
  have hopening : s.state.opening = false := by
    cases hs : s.state <;> simp_all [sends, opening]
  have hsending := (Sending.open_iff hopen).1 h.sending
  obtain ⟨k, hk⟩ := hsending.backlog not_false
  have hroom := h.sending.room_lt
  obtain ⟨hunacked, hnext, hhighest⟩ := h.sending.order
  have hlow := hk.low
  have hnear : u ≤ k + 262144 := by
    by_cases hnil : s.snd.queue = []
    · have : k = cells.length := by
        have hchain := hk.pieces.chain
        rw [hnil] at hchain
        exact hchain
      omega
    · exact hk.near hnil
  obtain ⟨c, hbefore, hafter, hc, hfirst⟩ := Chain.cut (y := n) hk.pieces.chain (by omega)
    (by omega) (by omega) (fun seg => seqLe (tcpSegmentEnd seg) s.snd.sendNext)
    (fun seg e hend hhigh hlow => by
      rw [tcpSegmentEnd, hend, h.sending.next, seqLe_seqOf (by omega) (by omega)]
      simp only [decide_eq_decide]
      omega)
  have hsplit : s.snd.queue =
      s.snd.queue.takeWhile (fun seg => seqLe (tcpSegmentEnd seg) s.snd.sendNext) ++
        s.snd.queue.dropWhile (fun seg => seqLe (tcpSegmentEnd seg) s.snd.sendNext) :=
    takeWhile_append_dropWhile.symm
  have hkc := hbefore.le
  obtain ⟨n', m', h1, h2, h3, h4, h5, h6, h7⟩ := outputLoop_spec now
    (if s.snd.cwnd < s.snd.peerWindow then s.snd.cwnd else s.snd.peerWindow) _ _
    h.sending.toNumbered hbefore (hsplit ▸ hk.pieces) hc hafter hfirst
    (contents_drop (hsplit ▸ hk.contents) hbefore) (by omega) (by split <;> omega) h.wire
  have hresent := Resent.append
    (s.snd.queue.takeWhile fun seg => seqLe (tcpSegmentEnd seg) s.snd.sendNext) h4
  rw [← hsplit] at hresent
  have hsends := tcpOutput_sends now s
  have hnotOpening : ¬ (s.state = .synSent ∨ s.state = .synReceived) := by
    rw [← opening_iff, hopening]
    simp
  rw [tcpOutput, if_neg hnotOpening, if_pos hstate] at hsends ⊢
  refine ⟨n', m', ⟨⟨?_, h5⟩, h2, hresent, h6.finSent, h6.inRecovery, h6.recover,
    fun ht => h7 (.inr ht),
    fun _ hlt _ => h7 (.inl ?_), by simp [hopening]⟩⟩
  · refine (Sending.open_iff ?_).2 (hsending.moved hk h6 h1 hresent h3)
    rw [hsends.state]
    exact hopen
  · intro hnil
    rw [hnil] at hafter
    have : c = cells.length := hafter
    omega

/-- `tcpOutput`, in any state. -/
theorem Live.output (now : Nat) (hsyn : s.state.opening → ∀ seg ∈ s.snd.queue, seg.flags.syn) :
    ∃ n' m', Output isn cells u n m n' m' s (tcpOutput now s) := by
  have hroom := h.sending.room_lt
  obtain ⟨hunacked, hnext, hhighest⟩ := h.sending.order
  by_cases hstate : s.state.sends
  · exact h.outputData now hstate
  by_cases hopening : s.state.opening
  · rw [tcpOutput, if_pos (opening_iff.1 hopening)]
    split
    · rename_i hqueue
      exact ⟨n, m, .refl h (Bool.eq_false_iff.2 hstate) fun _ _ => hqueue⟩
    rename_i seg rest hqueue
    have hflag : seg.flags.syn := hsyn hopening seg (by simp [hqueue])
    have hsame : (s.snd.sendNext == s.snd.sendUnacked) = decide (n = u) := by
      rw [h.sending.next, h.sending.unacked]
      simp only [beq_eq_decide, decide_eq_decide]
      rw [seqOf_inj (by omega) (by omega)]
      omega
    rw [hflag, hsame]
    split
    · rename_i heq
      exact h.outputSyn hqueue hopening (of_decide_eq_true heq)
    · rename_i hne
      exact ⟨n, m, .refl h (Bool.eq_false_iff.2 hstate) fun _ heq =>
        absurd (decide_eq_true heq) hne⟩
  · rw [tcpOutput, if_neg (fun hor => hopening (opening_iff.2 hor)), if_neg hstate]
    exact ⟨n, m, .refl h (Bool.eq_false_iff.2 hstate) fun hor => absurd hor hopening⟩

end

end InstantOS.Tcp

import InstantOS.Base.NumberedRuns
import InstantOS.Net.TcpFrame

/-!
# The send queue

Every sequence number the connection uses stands for one cell: a byte the application has queued,
or the SYN or FIN.  `cells` is the list of them from the initial sequence number on.  The queue
holds the cells from the first one that is not acknowledged, cut into segments; `u`, `n` and `m`
are the positions of `SND.UNA`, `SND.NXT` and the highest number sent.
-/

namespace InstantOS.Tcp

open Base TcpSendSegment Sender List

/-- What a sequence number stands for. -/
inductive Cell
  | control
  | byte (b : UInt8)
deriving DecidableEq, Repr

/-- The cells of a segment. -/
def segCells (seg : TcpSendSegment) : List Cell :=
  if seg.data.length ≠ 0 then seg.data.map .byte
  else if seg.flags.syn || seg.flags.fin then [.control] else []

@[simp] theorem length_segCells (seg : TcpSendSegment) :
    (segCells seg).length = tcpSegmentSpan seg := by
  unfold segCells tcpSegmentSpan
  split
  · exact length_map ..
  · split <;> rfl

/-- The segments cover the cells from `p` to `q`, and one ends at `m`. -/
abbrev Pieces (isn : Seq) (p m q : Nat) (segs : List TcpSendSegment) : Prop :=
  Split TcpSendSegment.seq tcpSegmentSpan isn.toNat kTcpSendBufferCap p m q segs

/-- The segments cover the cells from `p` to `q`. -/
abbrev Covers (isn : Seq) (p : Nat) (segs : List TcpSendSegment) (q : Nat) : Prop :=
  Chain TcpSendSegment.seq tcpSegmentSpan isn.toNat kTcpSendBufferCap p segs q

/-- The positions of the send variables. -/
structure Numbered (isn : Seq) (cells : List Cell) (u n m : Nat) (t : Sender) : Prop where
  sendSeq : t.sendSeq = seqOf (isn.toNat + cells.length)
  unacked : t.sendUnacked = seqOf (isn.toNat + u)
  next : t.sendNext = seqOf (isn.toNat + n)
  highest : t.sendMax = seqOf (isn.toNat + m)
  unacked_le : u ≤ n
  next_le : n ≤ m
  highest_le : m ≤ cells.length
  room : cells.length ≤ u + kTcpSendBufferCap + if t.finSent then 1 else 0
  rto : 0 < t.rtoMs
  mss : 0 < t.sendMss

/-- The queue from position `k` on: `SND.UNA` lies in its first segment, and a FIN comes last. -/
structure Queued (isn : Seq) (cells : List Cell) (k u m : Nat) (queue : List TcpSendSegment) :
    Prop where
  pieces : Pieces isn k m cells.length queue
  low : k ≤ u
  head : ∀ seg rest, queue = seg :: rest → u < k + tcpSegmentSpan seg
  contents : cells.drop k = queue.flatMap segCells
  finLast : queue.Pairwise fun seg _ => seg.flags.fin = false

variable {isn : Seq} {cells : List Cell} {k u n m : Nat} {t : Sender} {queue : List TcpSendSegment}

theorem Numbered.room_lt (h : Numbered isn cells u n m t) : cells.length ≤ u + 262145 := by
  have hroom := h.room
  simp only [kTcpSendBufferCap] at hroom
  split at hroom <;> omega

/-- An empty queue means that everything is acknowledged. -/
theorem Queued.nil_iff (h : Queued isn cells k u m queue) (hn : u ≤ n) (hm : n ≤ m) :
    queue = [] ↔ u = cells.length := by
  constructor
  · rintro rfl
    have hhigh := h.pieces.high
    have hlow : k = cells.length := h.pieces.chain
    have := h.low
    omega
  · rintro rfl
    cases hqueue : queue with
    | nil => rfl
    | cons seg rest =>
      have := h.head seg rest hqueue
      have hchain := h.pieces.chain
      rw [hqueue] at hchain
      have := hchain.head_le
      omega

/-- The beginning of the queue is not far before `SND.UNA`. -/
theorem Queued.near (h : Queued isn cells k u m queue) (hlt : queue ≠ []) : u ≤ k + 262144 := by
  obtain ⟨seg, rest, rfl⟩ := exists_cons_of_ne_nil hlt
  have := h.head seg rest rfl
  have := h.pieces.chain.2.2.1
  simp only [kTcpSendBufferCap] at this
  omega

/-- What a segment that has been sent keeps. -/
def TcpSendSegment.key (seg : TcpSendSegment) : Seq × List Cell × Bool :=
  (seg.seq, segCells seg, seg.flags.fin)

theorem Pieces.congr {p q : Nat} {segs segs' : List TcpSendSegment}
    (hkey : segs'.map key = segs.map key) (h : Pieces isn p m q segs) : Pieces isn p m q segs' := by
  refine Split.congr ?_ h
  have hmap : ∀ l : List TcpSendSegment, l.map (fun seg => (seg.seq, tcpSegmentSpan seg)) =
      (l.map key).map fun key => (key.1, key.2.1.length) := by
    intro l
    rw [map_map]
    exact map_congr_left fun seg _ => by simp [key]
  rw [hmap, hmap, hkey]

theorem Queued.congr {queue' : List TcpSendSegment} (hkey : queue'.map key = queue.map key)
    (h : Queued isn cells k u m queue) : Queued isn cells k u m queue' := by
  refine ⟨Pieces.congr hkey h.pieces, h.low, ?_, ?_, ?_⟩
  · rintro seg' rest' rfl
    cases queue with
    | nil => simp at hkey
    | cons seg rest =>
      have hhead := h.head seg rest rfl
      have hcells := congrArg (fun key => key.2.1.length) (cons.inj hkey).1
      simp only [key, length_segCells] at hcells
      rwa [hcells]
  · have hflat : ∀ l : List TcpSendSegment,
        l.flatMap segCells = (l.map key).flatMap fun key => key.2.1 := by
      intro l
      rw [flatMap_map]
      rfl
    rw [hflat, hkey, ← hflat]
    exact h.contents
  · have hpair : ∀ l : List TcpSendSegment, (l.Pairwise fun seg _ => seg.flags.fin = false) ↔
        (l.map key).Pairwise fun key _ => key.2.2 = false := by
      intro l
      rw [pairwise_map]
      rfl
    rw [hpair, hkey, ← hpair]
    exact h.finLast

/-! ## Acknowledging -/

theorem covers_length {p q : Nat} {segs : List TcpSendSegment} (h : Covers isn p segs q) :
    (segs.flatMap segCells).length = q - p := by
  induction segs generalizing p with
  | nil =>
    have : p = q := h
    simp [this]
  | cons seg rest ih =>
    have hrest := ih h.2.2.2
    have := h.head_le
    rw [flatMap_cons, length_append, length_segCells]
    omega

/-- The cells behind the first segments are those of the other ones. -/
theorem contents_drop {c : Nat} {before after : List TcpSendSegment}
    (hcontents : cells.drop k = (before ++ after).flatMap segCells)
    (hbefore : Covers isn k before c) : cells.drop c = after.flatMap segCells := by
  have hdrop : cells.drop c = (cells.drop k).drop (c - k) := by
    rw [drop_drop, Nat.add_sub_cancel' hbefore.le]
  rw [hdrop, hcontents, flatMap_append, ← covers_length hbefore, drop_left]

/-- The segments `ackNum` covers. -/
def covered (ackNum : Seq) (seg : TcpSendSegment) : Bool := !seqLt ackNum (tcpSegmentEnd seg)

theorem covered_iff {a : Nat} (seg : TcpSendSegment) (e : Nat)
    (hend : seg.seq + BitVec.ofNat 32 (tcpSegmentSpan seg) = seqOf (isn.toNat + e))
    (hhigh : e < a + 2147483648) (hlow : a < e + 2147483648) :
    covered (seqOf (isn.toNat + a)) seg = decide (e ≤ a) := by
  rw [covered, tcpSegmentEnd, hend, seqLt_seqOf (by omega) (by omega), ← decide_not]
  simp only [decide_eq_decide]
  omega

/-- The segments an acknowledgement covers go, and the first one left is the one it lies in. -/
theorem Queued.ack (h : Queued isn cells k u m queue) {a : Nat} (hu : u ≤ a) (ha : a ≤ m)
    (hroom : cells.length ≤ u + 262145) :
    ∃ k', Queued isn cells k' a m (queue.dropWhile (covered (seqOf (isn.toNat + a)))) := by
  have hhigh := h.pieces.high
  have hlow := h.low
  by_cases hnil : queue = []
  · subst hnil
    refine ⟨k, h.pieces, by omega, by simp, h.contents, by simp⟩
  have hnear := h.near hnil
  obtain ⟨c, hbefore, hafter, hc, hfirst⟩ := Chain.cut (y := a) h.pieces.chain (by omega) (by omega)
    (by omega) _ covered_iff
  have hsplit : queue = queue.takeWhile (covered (seqOf (isn.toNat + a))) ++
      queue.dropWhile (covered (seqOf (isn.toNat + a))) :=
    takeWhile_append_dropWhile.symm
  refine ⟨c, ?_, hc, hfirst, ?_, ?_⟩
  · refine Split.drop ?_ hbefore (by omega)
    rw [← hsplit]
    exact h.pieces
  · refine contents_drop ?_ hbefore
    rw [← hsplit]
    exact h.contents
  · exact h.finLast.sublist (dropWhile_sublist _)

/-- What the loop of `tcpAckSendQueue` leaves. -/
theorem ackQueue_queue (ackNum : Seq) (now : Nat) (queue : List TcpSendSegment) (finAcked : Bool)
    (sample : Option Nat) :
    (ackQueue ackNum now queue finAcked sample).1 = queue.dropWhile (covered ackNum) := by
  induction queue generalizing finAcked sample with
  | nil => rfl
  | cons seg rest ih =>
    rw [ackQueue, dropWhile_cons, covered]
    cases seqLt ackNum (tcpSegmentEnd seg) with
    | true => rfl
    | false => exact ih _ _

/-- A FIN is acknowledged only with everything before it. -/
theorem ackQueue_fin {ackNum : Seq} {now : Nat} {queue : List TcpSendSegment} {finAcked : Bool}
    {sample : Option Nat} (hlast : queue.Pairwise fun seg _ => seg.flags.fin = false)
    (hbefore : finAcked → queue = []) (hafter : (ackQueue ackNum now queue finAcked sample).2.1) :
    (ackQueue ackNum now queue finAcked sample).1 = [] ∧
      (finAcked ∨ ∃ seg ∈ queue, seg.flags.fin) := by
  induction queue generalizing finAcked sample with
  | nil => exact ⟨rfl, .inl hafter⟩
  | cons seg rest ih =>
    have hnot : finAcked = false := by
      cases finAcked with
      | true => simp at hbefore
      | false => rfl
    rw [ackQueue] at hafter ⊢
    split at hafter
    · rw [hnot] at hafter
      cases hafter
    rename_i hlt
    rw [if_neg hlt]
    have hrest : (finAcked || seg.flags.fin) → rest = [] := by
      intro hfin
      rw [hnot, Bool.false_or] at hfin
      apply eq_nil_iff_forall_not_mem.2
      intro x hx
      have := (pairwise_cons.1 hlast).1 x hx
      rw [hfin] at this
      cases this
    obtain ⟨hnil, hfin⟩ := ih (pairwise_cons.1 hlast).2 hrest hafter
    refine ⟨hnil, .inr ?_⟩
    rcases hfin with hfin | ⟨x, hx, hfin⟩
    · exact ⟨seg, mem_cons_self, by simpa [hnot] using hfin⟩
    · exact ⟨x, mem_cons_of_mem seg hx, hfin⟩

/-! ## The send side -/

/-- The send side of a connection; once it is closed, the queue is gone. -/
structure Sending (isn : Seq) (cells : List Cell) (u n m : Nat) (closed : Prop) (t : Sender) :
    Prop extends Numbered isn cells u n m t where
  backlog : ¬ closed → ∃ k, Queued isn cells k u m t.queue
  gone : closed → t.queue = []
  finQueued : ∀ seg ∈ t.queue, seg.flags.fin = true → t.finSent = true
  finAcked : t.finAcked = true → t.finSent = true ∧ t.queue = []

/-- The fields that the queue and its numbers do not depend on, forgotten. -/
def Sender.core (t : Sender) : Sender :=
  { t with
    peerWindow := 0, sendScale := 0, cwnd := 0, ssthresh := 0
    inRecovery := false, recover := 0, dupAckCount := 0, srttUs := 0, rttvarUs := 0, rtoMs := 0
    backoff := 0, rtxDeadline := 0 }

variable {closed : Prop}

section

variable (h : Numbered isn cells u n m t)

include h

theorem Numbered.order : u ≤ n ∧ n ≤ m ∧ m ≤ cells.length :=
  ⟨h.unacked_le, h.next_le, h.highest_le⟩

theorem Numbered.setQueue (queue : List TcpSendSegment) :
    Numbered isn cells u n m { t with queue := queue } :=
  { h with }

theorem Numbered.congr {t' : Sender} (hcore : t'.core = t.core)
    (hrto : 0 < t'.rtoMs) : Numbered isn cells u n m t' := by
  have hfin : t'.finSent = t.finSent := (congrArg finSent hcore :)
  exact ⟨(congrArg Sender.sendSeq hcore :).trans h.sendSeq,
    (congrArg sendUnacked hcore :).trans h.unacked,
    (congrArg sendNext hcore :).trans h.next,
    (congrArg sendMax hcore :).trans h.highest, h.unacked_le, h.next_le, h.highest_le,
    by rw [hfin]; exact h.room, hrto,
    (congrArg sendMss hcore :) ▸ h.mss⟩

end

section

variable (h : Sending isn cells u n m closed t)

include h

theorem Sending.first {seg : TcpSendSegment} {rest : List TcpSendSegment}
    (hqueue : t.queue = seg :: rest) :
    ¬ closed ∧ ∃ k, Queued isn cells k u m (seg :: rest) := by
  have hopen : ¬ closed := fun hclosed => by
    have hnil := h.gone hclosed
    rw [hqueue] at hnil
    cases hnil
  exact ⟨hopen, hqueue ▸ h.backlog hopen⟩

theorem Sending.noFin (hfin : t.finSent = false) :
    (∀ seg ∈ t.queue, seg.flags.fin = false) ∧ t.finAcked = false := by
  rw [Bool.eq_false_iff] at hfin
  exact ⟨fun seg hseg => Bool.eq_false_iff.2 fun hflag => hfin (h.finQueued seg hseg hflag),
    Bool.eq_false_iff.2 fun hacked => hfin (h.finAcked hacked).1⟩

theorem Sending.congr {t' : Sender}
    (hcore : t'.core = t.core) (hrto : 0 < t'.rtoMs) : Sending isn cells u n m closed t' := by
  have hqueue : t'.queue = t.queue := (congrArg queue hcore :)
  have hfin : t'.finSent = t.finSent := (congrArg finSent hcore :)
  have hacked : t'.finAcked = t.finAcked := (congrArg Sender.finAcked hcore :)
  refine ⟨h.toNumbered.congr hcore hrto, ?_, ?_, ?_, ?_⟩
  · rw [hqueue]
    exact h.backlog
  · rw [hqueue]
    exact h.gone
  · rw [hqueue, hfin]
    exact h.finQueued
  · rw [hqueue, hfin, hacked]
    exact h.finAcked

end

/-- A value cut at the ceiling stays positive. -/
theorem cut_pos {x : Nat} (h : 0 < x) : 0 < if x < kTcpMaxRtoMs then x else kTcpMaxRtoMs := by
  split
  · exact h
  · decide

theorem tcpRttSample_rto (ms : Nat) (t : Sender) : 0 < (tcpRttSample ms t).rtoMs := by
  have hfloor : ∀ x, 0 < if x < kTcpMinRtoMs then kTcpMinRtoMs else x := by
    intro x
    by_cases hx : x < kTcpMinRtoMs
    · rw [if_pos hx]
      decide
    · rw [if_neg hx]
      exact Nat.lt_of_lt_of_le (by decide) (Nat.le_of_not_lt hx)
  exact cut_pos (hfloor _)

theorem tcpCurrentRto_pos (h : 0 < t.rtoMs) : 0 < tcpCurrentRto t := by
  refine cut_pos ?_
  rw [Nat.shiftLeft_eq]
  exact Nat.mul_pos h (Nat.two_pow_pos _)

theorem tcpRttSample_eq (ms : Nat) (t : Sender) :
    ∃ x y z, tcpRttSample ms t = { t with srttUs := x, rttvarUs := y, rtoMs := z } := by
  unfold tcpRttSample
  dsimp only
  split
  · exact ⟨_, _, _, rfl⟩
  · exact ⟨_, _, _, rfl⟩

/-- What `ackAndSample` does besides the RTT estimate. -/
theorem ackAndSample_eq (ack : Seq) (now : Nat) (t : Sender) : ∃ x y z, ackAndSample ack now t =
      { (tcpAckSendQueue ack now t).2 with srttUs := x, rttvarUs := y, rtoMs := z } := by
  unfold ackAndSample
  split
  · rename_i heq
    rw [heq]
    exact tcpRttSample_eq _ _
  · rename_i heq
    rw [heq]
    exact ⟨_, _, _, rfl⟩

theorem ackAndSample_rto (ackNum : Seq) (now : Nat) (h : 0 < t.rtoMs) :
    0 < (ackAndSample ackNum now t).rtoMs := by
  unfold ackAndSample
  split
  · exact tcpRttSample_rto _ _
  rename_i heq
  have : (tcpAckSendQueue ackNum now t).2.rtoMs = t.rtoMs := rfl
  rw [heq] at this
  rwa [← this] at h

/-- An acknowledgement of a position that has been sent. -/
theorem Sending.ack (h : Sending isn cells u n m closed t) {a : Nat} (hu : u ≤ a) (ha : a ≤ m)
    (now : Nat) :
    Sending isn cells a (max n a) m closed (ackAndSample (seqOf (isn.toNat + a)) now t) := by
  have hroom := h.room_lt
  have hnext := h.next_le
  have hunacked := h.unacked_le
  have hhighest := h.highest_le
  have hgrown : (if seqGt (seqOf (isn.toNat + a)) t.sendUnacked then seqOf (isn.toNat + a)
      else t.sendUnacked) = seqOf (isn.toNat + a) := by
    rw [h.unacked, seqGt_seqOf (by omega) (by omega)]
    simp only [decide_eq_true_eq]
    split
    · rfl
    · rw [show u = a by omega]
  have hmoved : (if seqLt t.sendNext (seqOf (isn.toNat + a)) then seqOf (isn.toNat + a)
      else t.sendNext) = seqOf (isn.toNat + max n a) := by
    rw [h.next, seqLt_seqOf (by omega) (by omega)]
    simp only [decide_eq_true_eq]
    split
    · rw [show max n a = a by omega]
    · rw [show max n a = n by omega]
  have hqueue : (tcpAckSendQueue (seqOf (isn.toNat + a)) now t).2.queue =
      t.queue.dropWhile (covered (seqOf (isn.toNat + a))) := ackQueue_queue _ _ _ _ _
  have hfin : (tcpAckSendQueue (seqOf (isn.toNat + a)) now t).2.finAcked →
      t.finSent ∧ t.queue.dropWhile (covered (seqOf (isn.toNat + a))) = [] := by
    intro hacked
    have hlast : t.queue.Pairwise fun seg _ => seg.flags.fin = false := by
      by_cases hclosed : closed
      · rw [h.gone hclosed]
        exact .nil
      · obtain ⟨k, hk⟩ := h.backlog hclosed
        exact hk.finLast
    obtain ⟨hnil, hsent⟩ := ackQueue_fin hlast (fun hbefore => (h.finAcked hbefore).2) hacked
    rw [ackQueue_queue] at hnil
    refine ⟨?_, hnil⟩
    rcases hsent with hbefore | ⟨seg, hseg, hflag⟩
    · exact (h.finAcked hbefore).1
    · exact h.finQueued seg hseg hflag
  have hcore : (ackAndSample (seqOf (isn.toNat + a)) now t).core =
      (tcpAckSendQueue (seqOf (isn.toNat + a)) now t).2.core := by
    obtain ⟨x, y, z, heq⟩ := ackAndSample_eq (seqOf (isn.toNat + a)) now t
    rw [heq]
    rfl
  refine Sending.congr ?_ hcore (ackAndSample_rto _ _ h.rto)
  refine ⟨⟨h.sendSeq, hgrown, ?_, h.highest, by omega, by omega, hhighest, ?_, h.rto, h.mss⟩,
    ?_, ?_, ?_, ?_⟩
  · change (if seqLt t.sendNext (if seqGt (seqOf (isn.toNat + a)) t.sendUnacked then
      seqOf (isn.toNat + a) else t.sendUnacked) then _ else t.sendNext) = _
    rw [hgrown]
    exact hmoved
  · have := h.room
    change cells.length ≤ a + kTcpSendBufferCap + if t.finSent then 1 else 0
    omega
  · intro hclosed
    obtain ⟨k, hk⟩ := h.backlog hclosed
    rw [hqueue]
    exact hk.ack hu ha hroom
  · intro hclosed
    rw [hqueue, h.gone hclosed]
    rfl
  · rw [hqueue]
    intro seg hseg
    exact h.finQueued seg ((dropWhile_sublist _).subset hseg)
  · rw [hqueue]
    exact hfin

end InstantOS.Tcp

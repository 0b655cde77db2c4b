import InstantOS.Net.Tcp

/-!
# What the send side leaves alone

Queueing, transmitting and acknowledging change the send side, what was announced and what is on
the wire, and nothing else; receiving data changes the receive side, what was announced and the
wire.  `Sends` and `Receives` say so, with one lemma for each function.
-/

namespace InstantOS.Tcp

open Base

/-! ## Functions of the send side -/

/-- Only the send side, the announcement and the wire may have changed. -/
def Sends (s s' : Socket) : Prop :=
  s' = { s with snd := s'.snd, ann := s'.ann, wire := s'.wire }

namespace Sends

variable {s s' s'' : Socket}

theorem refl (s : Socket) : Sends s s := rfl

section

variable (h : Sends s s')

include h

theorem trans (h' : Sends s' s'') : Sends s s'' := by
  rw [Sends] at h h' ⊢
  rw [h', h]

theorem rcv : s'.rcv = s.rcv := by rw [h]
theorem state : s'.state = s.state := by rw [h]
theorem orphan : s'.orphan = s.orphan := by rw [h]

theorem setSnd (t : Sender) : Sends s (s'.setSnd t) := h.trans rfl

end

end Sends

variable (now : Nat)

@[simp] theorem setSnd_snd (t : Sender) (s : Socket) : (s.setSnd t).snd = t := rfl

theorem tcpSendControl_sends (flags : Flags) (s : Socket) : Sends s (tcpSendControl flags s) := rfl

theorem sendHead_sends (s : Socket) : Sends s (sendHead now s) := by
  unfold sendHead
  split
  · exact .refl s
  · rfl

theorem outputLoop_sends (now window : Nat) (segs : List TcpSendSegment) (s : Socket) :
    Sends s (outputLoop now window segs s).2 := by
  induction segs generalizing s with
  | nil => exact .refl s
  | cons seg rest ih =>
    rw [outputLoop]
    split
    · rfl
    · refine .trans ?_ (ih _)
      rfl

theorem tcpOutput_sends (s : Socket) : Sends s (tcpOutput now s) := by
  unfold tcpOutput
  split
  · split
    · exact .refl s
    · split
      · rfl
      · exact .refl s
  · split
    · exact (outputLoop_sends now _ _ s).setSnd _
    · exact .refl s

theorem tcpQueueSegment_sends (flags : Flags) (data : List UInt8) (allocated : Bool)
    (s : Socket) : Sends s (tcpQueueSegment now flags data allocated s).2 := by
  unfold tcpQueueSegment
  split
  · exact ((Sends.refl s).setSnd _).trans (tcpOutput_sends now _)
  · exact .refl s

theorem growWindow_sends (ack : Seq) (acked : Nat) (s : Socket) :
    Sends s (growWindow now ack acked s) := by
  unfold growWindow
  split
  · split
    · exact (sendHead_sends now s).setSnd _
    · rfl
  · split <;> rfl

theorem processNewAck_sends (ack : Seq) (s : Socket) : Sends s (processNewAck now ack s) := by
  exact ((Sends.refl s).setSnd _).trans ((growWindow_sends now ack _ _).setSnd _)

theorem fastRetransmit_sends (s : Socket) : Sends s (fastRetransmit now s) := by
  refine .trans ?_ ((sendHead_sends now _).setSnd _)
  rfl

theorem processDuplicate_sends (s : Socket) : Sends s (processDuplicate now s) := by
  unfold processDuplicate
  dsimp only
  split
  · rfl
  · split
    · exact ((Sends.refl s).setSnd _).trans (fastRetransmit_sends now _)
    · rfl

theorem processSameAck_sends (seg : TcpSegmentInfo) (oldWindow : Nat) (s : Socket) :
    Sends s (processSameAck now seg oldWindow s) := by
  unfold processSameAck
  dsimp only
  split
  · exact ((Sends.refl s).setSnd _).trans (processDuplicate_sends now _)
  · rfl

theorem tcpProcessAck_sends (seg : TcpSegmentInfo) (s : Socket) :
    Sends s (tcpProcessAck now seg s) := by
  unfold tcpProcessAck
  split
  · rfl
  split
  · exact .refl s
  dsimp only
  split
  · exact ((Sends.refl s).setSnd _).trans (processNewAck_sends now seg.ack _)
  · exact ((Sends.refl s).setSnd _).trans (processSameAck_sends now seg _ _)

theorem tcpSendWindowUpdate_sends (s : Socket) : Sends s (tcpSendWindowUpdate s) := by
  unfold tcpSendWindowUpdate
  split
  · dsimp only
    split
    · rfl
    · exact .refl s
  · exact .refl s

/-! ## Functions of the receive side -/

/-- Only the receive side, the announcement and the wire may have changed. -/
def Receives (s s' : Socket) : Prop :=
  s' = { s with rcv := s'.rcv, ann := s'.ann, wire := s'.wire }

namespace Receives

variable {s s' : Socket} (h : Receives s s')

include h

theorem snd : s'.snd = s.snd := by rw [h]
theorem state : s'.state = s.state := by rw [h]
theorem orphan : s'.orphan = s.orphan := by rw [h]

end Receives

/-- Receiving data, as far as the others notice: only ACKs go out. -/
structure Replies (s s' : Socket) : Prop where
  receives : Receives s s'
  acks : ∃ acks : List Transmission, s'.wire = s.wire ++ acks ∧ ∀ x ∈ acks, x.data = []

theorem replies_ack (s : Socket) (r : Receiver) (ann : Announcement) (seq : Seq) (again : Bool) :
    Replies s (tcpTransmit seq kTcpAck [] again { s with rcv := r, ann := ann }) :=
  ⟨rfl, [_], rfl, by simp⟩

theorem replies_silent (s : Socket) (r : Receiver) (ann : Announcement) :
    Replies s { s with rcv := r, ann := ann } :=
  ⟨rfl, [], (List.append_nil _).symm, by simp⟩

theorem tcpSendWindowUpdate_replies (s : Socket) (r : Receiver) :
    Replies s (tcpSendWindowUpdate { s with rcv := r }) := by
  unfold tcpSendWindowUpdate
  split
  · dsimp only
    split
    · exact replies_ack s ..
    · exact replies_silent s ..
  · exact replies_silent s ..

@[simp] theorem tcpSendControl_rcv (flags : Flags) (s : Socket) :
    (tcpSendControl flags s).rcv = s.rcv := rfl

@[simp] theorem acknowledgeData_rcv (psh filledHole : Bool) (s : Socket) :
    (acknowledgeData now psh filledHole s).rcv = s.rcv := by
  unfold acknowledgeData
  dsimp only
  split
  · rfl
  · split <;> rfl

theorem acknowledgeData_replies (psh filledHole : Bool) (s : Socket) (r : Receiver) :
    Replies s (acknowledgeData now psh filledHole { s with rcv := r }) := by
  unfold acknowledgeData
  dsimp only
  split
  · exact replies_ack s ..
  · split <;> exact replies_silent s ..

theorem receiveTrimmed_replies (memory : List Bool) (psh : Bool) (seq : Seq) (data : List UInt8)
    (s : Socket) : Replies s (receiveTrimmed now memory psh seq data s) := by
  unfold receiveTrimmed
  dsimp only
  split
  · exact replies_ack s ..
  split
  · exact replies_ack s ..
  · exact acknowledgeData_replies now psh _ s _

theorem tcpReceiveData_replies (memory : List Bool) (seg : TcpSegmentInfo) (s : Socket) :
    Replies s (tcpReceiveData now memory seg s) := by
  unfold tcpReceiveData
  split
  · dsimp only
    split
    · exact replies_ack s ..
    · exact receiveTrimmed_replies now memory _ _ _ s
  · exact receiveTrimmed_replies now memory _ _ _ s

theorem stateAfterFin_same (s : Socket) : (stateAfterFin now s).snd = s.snd ∧
    (stateAfterFin now s).rcv = s.rcv ∧ (stateAfterFin now s).wire = s.wire := by
  unfold stateAfterFin
  split
  · exact ⟨rfl, rfl, rfl⟩
  · exact ⟨rfl, rfl, rfl⟩
  · split <;> exact ⟨rfl, rfl, rfl⟩
  · exact ⟨rfl, rfl, rfl⟩
  · exact ⟨rfl, rfl, rfl⟩

end InstantOS.Tcp

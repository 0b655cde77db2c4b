import InstantOS.Net.TcpAcks

/-!
# The state machine and the send queue

Each function of the state machine keeps the invariant of the send side, and leaves the timer
running at the end of the event.
-/

namespace InstantOS.Tcp

open Base TcpState

variable {isn : Seq} {cells : List Cell} {u n m : Nat} {s : Socket}

/-! ## Changes of the state -/

/-- Another state for the same send side. -/
theorem Sound.restate {s' : Socket} (h : Sound isn cells u n m s) (hsnd : s'.snd = s.snd)
    (hwire : Wired isn cells u s') (hclosed : s'.state = .closed ↔ s.state = .closed)
    (hopening : s'.state.opening → s.state.opening) (hsyn : s'.state ≠ .synSent)
    (hfin : s.snd.finSent →
      s'.state ≠ .established ∧ s'.state ≠ .closeWait ∧ s'.state.opening = false) :
    Sound isn cells u n m s' := by
  have hsame : (s'.state = .closed) = (s.state = .closed) := propext hclosed
  refine ⟨⟨?_, hwire⟩, ⟨?_, fun hyes => absurd hyes hsyn, ?_, ?_⟩⟩
  · rw [hsnd, hsame]
    exact h.sending
  · intro hyes
    rw [hsnd]
    exact h.fit.syn (hopening hyes)
  · rw [hsnd]
    exact hfin
  · rw [hsnd]
    exact h.fit.recovering

/-- The connection is over and its queue is gone. -/
theorem Sound.over {s' : Socket} (h : Sound isn cells u n m s) (hstate : s'.state = .closed)
    (hcore : s'.snd.core = { s.snd with queue := [] }.core) (hrto : s'.snd.rtoMs = s.snd.rtoMs)
    (hin : s'.snd.inRecovery = s.snd.inRecovery) (hrecover : s'.snd.recover = s.snd.recover)
    (hwire : Wired isn cells u s') : Sound isn cells u n m s' ∧ Armed s' := by
  have hqueue : s'.snd.queue = [] := (congrArg Sender.queue hcore :)
  have hfin : s'.snd.finAcked = s.snd.finAcked := (congrArg Sender.finAcked hcore :)
  have hsent : s'.snd.finSent = s.snd.finSent := (congrArg Sender.finSent hcore :)
  refine ⟨⟨⟨⟨?_, ?_, fun _ => hqueue, ?_, ?_⟩, hwire⟩, ⟨?_, ?_, ?_, ?_⟩⟩, ?_⟩
  · exact (h.sending.toNumbered.setQueue []).congr hcore (by rw [hrto]; exact h.sending.rto)
  · exact fun hopen => absurd hstate hopen
  · simp [hqueue]
  · rw [hfin, hsent]
    exact fun hacked => ⟨(h.sending.finAcked hacked).1, hqueue⟩
  · simp [hqueue]
  · simp [hstate]
  · intro _
    simp [hstate, opening]
  · rw [hin, hrecover]
    exact h.fit.recovering
  · intro _ hne
    exact absurd hqueue hne

/-! ## The end of an event -/

/-- The state of a connection between two events. -/
def Steady (isn : Seq) (cells : List Cell) (s : Socket) : Prop :=
  ∃ u n m, Sound isn cells u n m s ∧ Armed s

theorem Sound.abort_steady (h : Sound isn cells u n m s) (error : Nat) :
    Steady isn cells (tcpAbort error s) :=
  ⟨u, n, m, h.over rfl rfl rfl rfl rfl h.wire⟩

section

variable (h : Sound isn cells u n m s) (hpauses : Pauses u n s)

include h hpauses

theorem Sound.output_steady (now : Nat) : Steady isn cells (tcpOutput now s) := by
  obtain ⟨n', m', hsound, harmed⟩ := h.output hpauses now
  exact ⟨u, n', m', hsound, harmed⟩

/-! ## Inbound segments -/

theorem Sound.completeOpen (hsyn : s.state ≠ .synSent) :
    Sound isn cells u n m (completeOpen s) ∧ Pauses u n (completeOpen s) ∧
      (completeOpen s).state ≠ .synSent := by
  unfold Tcp.completeOpen
  split
  · rename_i hopen
    refine ⟨h.restate rfl h.wire (by simp [hopen.1]) (by simp [opening]) (by simp) ?_,
      fun _ => hpauses (by rw [hopen.1]; rfl), by simp⟩
    intro hsent
    have := (h.fit.finSent hsent).2.2
    rw [hopen.1] at this
    cases this
  · exact ⟨h, hpauses, hsyn⟩

theorem Sound.advanceClose (hsyn : s.state ≠ .synSent) (now : Nat) :
    Sound isn cells u n m (advanceClose now s) ∧ Pauses u n (advanceClose now s) ∧
      (advanceClose now s).state ≠ .synSent := by
  unfold Tcp.advanceClose
  split
  · rename_i hacked
    obtain ⟨-, hnil⟩ := h.sending.finAcked hacked
    split
    · rename_i hstate
      exact ⟨h.restate rfl h.wire (by simp [hstate]) (by simp [opening]) (by simp)
        (by simp [opening]), fun _ _ => .inl hnil, by simp⟩
    split
    · rename_i hstate
      exact ⟨h.restate rfl h.wire (by simp [hstate]) (by simp [opening]) (by simp)
        (by simp [opening]), fun _ _ => .inl hnil, by simp⟩
    split
    · have hcore : s.snd.core = { s.snd with queue := [] }.core := by
        rw [Sender.core, Sender.core, hnil]
      have hover : Sound isn cells u n m { s with
          state := .closed, connected := false, snd := { s.snd with rtxDeadline := 0 } } ∧
            Armed _ :=
        h.over rfl hcore rfl rfl rfl h.wire
      exact ⟨hover.1, fun _ _ => .inl hnil, by simp⟩
    · exact ⟨h, hpauses, hsyn⟩
  · exact ⟨h, hpauses, hsyn⟩

end

/-- The acknowledgements of received data carry none. -/
theorem Sound.replies {s' : Socket} (h : Sound isn cells u n m s) (hreplies : Replies s s') :
    Sound isn cells u n m s' := by
  obtain ⟨hreceives, acks, hwire, hempty⟩ := hreplies
  refine h.sends hreceives.state hreceives.snd fun x hx => ?_
  rcases List.mem_append.1 (hwire ▸ hx) with hx | hx
  · exact h.wire x hx
  · exact ⟨fun hdata => absurd (hempty x hx) hdata, fun hdata => absurd (hempty x hx) hdata⟩

/-- The states a FIN leads to. -/
theorem stateAfterFin_state (now : Nat) (s : Socket) :
    ((stateAfterFin now s).state = .closed ↔ s.state = .closed) ∧
      (stateAfterFin now s).state.opening = (decide (s.state = .synSent)) ∧
      ((stateAfterFin now s).state = .synSent ↔ s.state = .synSent) ∧
      (stateAfterFin now s).state ≠ .established ∧ ((stateAfterFin now s).state = .closeWait →
        s.state = .established ∨ s.state = .closeWait ∨ s.state = .synReceived) ∧
      ((stateAfterFin now s).state.timed → s.state.timed) := by
  unfold stateAfterFin
  split
  · rename_i hs
    simp [hs, opening, timed, sends]
  · rename_i hs
    simp [hs, opening, timed]
  · rename_i hs
    split <;> simp [hs, opening, timed, sends]
  · rename_i hs
    simp [hs, opening, timed, sends]
  · cases hs : s.state <;> simp_all [opening]

section

variable (h : Sound isn cells u n m s) (hpauses : Pauses u n s) (hsyn : s.state ≠ .synSent)

include h hpauses hsyn

theorem Sound.stateAfterFin (now : Nat) :
    Sound isn cells u n m (stateAfterFin now s) ∧ Pauses u n (stateAfterFin now s) := by
  obtain ⟨hclosed, hopening, hsent, hest, hwait, htimed⟩ := stateAfterFin_state now s
  have hnotOpening : (Tcp.stateAfterFin now s).state.opening = false := by
    rw [hopening]
    exact decide_eq_false hsyn
  obtain ⟨hsnd, -, hwire⟩ := stateAfterFin_same now s
  refine ⟨h.restate hsnd ?_ hclosed (by simp [hnotOpening])
    (fun hyes => hsyn (hsent.1 hyes)) ?_, ?_⟩
  · intro x hx
    rw [hwire] at hx
    exact h.wire x hx
  · intro hfin
    obtain ⟨h1, h2, h3⟩ := h.fit.finSent hfin
    refine ⟨hest, fun hyes => ?_, hnotOpening⟩
    rcases hwait hyes with hs | hs | hs
    · exact h1 hs
    · exact h2 hs
    · rw [hs] at h3
      cases h3
  · intro hyes hstopped
    rw [hsnd] at hstopped ⊢
    exact hpauses (htimed hyes) hstopped

theorem Sound.processFin (now : Nat) (seg : TcpSegmentInfo) :
    Sound isn cells u n m (processFin now seg s) ∧ Pauses u n (processFin now seg s) := by
  unfold Tcp.processFin
  split
  · dsimp only
    split
    · refine Sound.stateAfterFin ?_ ?_ ?_ now
      · refine h.sends rfl rfl (Wired.control ?_ kTcpAck)
        exact h.wire
      · exact hpauses
      · exact hsyn
    · split
      · exact ⟨h.control kTcpAck, hpauses⟩
      · exact ⟨h, hpauses⟩
  · exact ⟨h, hpauses⟩

theorem Sound.processContents (now : Nat) (memory : List Bool) (seg : TcpSegmentInfo) :
    Steady isn cells (processContents now memory seg s) := by
  unfold Tcp.processContents
  split
  · split
    · exact (h.transmit s.snd.sendMax kTcpRstAck false).abort_steady SysErrConnectionReset
    have hreplies := tcpReceiveData_replies now memory seg s
    have hreceives := hreplies.receives
    have hpauses' : Pauses u n (tcpReceiveData now memory seg s) := by
      unfold Pauses
      rw [hreceives.state, hreceives.snd]
      exact hpauses
    obtain ⟨hsound, hready⟩ := (h.replies hreplies).processFin hpauses'
      (by rw [hreceives.state]; exact hsyn) now seg
    exact hsound.output_steady hready now
  · obtain ⟨hsound, hready⟩ := h.processFin hpauses hsyn now seg
    exact hsound.output_steady hready now

end

theorem Sound.processAcked (h : Sound isn cells u n m s) (harmed : Armed s) (hsilent : Silent s)
    (hsyn : s.state ≠ .synSent) (now : Nat) (memory : List Bool) (seg : TcpSegmentInfo) :
    Steady isn cells (processAcked now memory seg s) := by
  obtain ⟨u', n', hacked, hpauses⟩ := h.processAck hsyn hsilent harmed now seg
  have hsyn' : (tcpProcessAck now seg s).state ≠ .synSent := by
    rw [(tcpProcessAck_sends now seg s).state]
    exact hsyn
  unfold Tcp.processAcked
  dsimp only
  have hclosed : ∀ {s' : Socket} {u n m : Nat}, Sound isn cells u n m s' → s'.state = .closed →
      Steady isn cells s' := by
    intro s' u n m hsound hstate
    refine ⟨u, n, m, hsound, fun htimed => ?_⟩
    rw [hstate] at htimed
    cases htimed
  split
  · rename_i hstate
    exact hclosed hacked hstate
  obtain ⟨hopened, hpauses1, hsyn1⟩ := hacked.completeOpen hpauses hsyn'
  obtain ⟨hadvanced, hpauses2, hsyn2⟩ := hopened.advanceClose hpauses1 hsyn1 now
  split
  · rename_i hstate
    exact hclosed hadvanced hstate
  · exact hadvanced.processContents hpauses2 hsyn2 now memory seg

end InstantOS.Tcp

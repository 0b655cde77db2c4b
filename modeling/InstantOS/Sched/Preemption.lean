import InstantOS.Sched.ReadyRun

/-!
# Preemption

An interrupt frame has no room for `r12` to `r15`, so a process may be resumed through a
frame only on the CPU that still has its `r12` to `r15`, which is where it was interrupted.
What makes this so is a fact about `validUserState`: only a process that some CPU runs has
it.  As a consequence nothing is ever parked.
-/

namespace InstantOS.Sched

open Sched.System

variable {o : Prop} {s s' : System} {c : Cpu} {p : Ptr} {env : Env} {frame : InterruptFrame}

/-! ## The invariant -/

/-- Only processes that CPUs run have a valid user state, and none is parked. -/
structure Framed (s : System) : Prop where
  valid : ∀ p, (s.proc p).validUserState = true → ∃ d, s.current d = some p
  unparked : ∀ d, s.deferred d = none

theorem Roused.validUserState {sig : Prop} {a b : Process} (h : Roused sig a b) :
    b.validUserState = a.validUserState :=
  show b.fixed.validUserState = a.fixed.validUserState from congrArg Process.validUserState h.fixed

namespace Framed

variable (h : Framed s)

include h

/-- The CPUs run what they ran, and no process gains a valid user state. -/
theorem congr (hcpus : s'.cpus = s.cpus)
    (hproc : ∀ p, (s'.proc p).validUserState → (s.proc p).validUserState) : Framed s' where
  valid p hp := by
    obtain ⟨d, hd⟩ := h.valid p (hproc p hp)
    exact ⟨d, (current_eq hcpus d).trans hd⟩
  unparked d := by
    rw [deferred, hcpus]
    exact h.unparked d

theorem woken {sig : Prop} (hw : Woken sig s s') : Framed s' :=
  h.congr hw.cpus fun p hp => (hw.proc p).validUserState ▸ hp

theorem requeued (hsame : Requeued s s') : Framed s' :=
  h.woken (show Woken False s s' from .of_requeued hsame)

/-- A process is changed that a CPU runs, or its valid user state is not set. -/
theorem modify (p : Ptr) {f : Process → Process} (hf : (∃ d, s.current d = some p) ∨
      ((f (s.proc p)).validUserState → (s.proc p).validUserState)) : Framed (s.modify p f) where
  valid r hr := by
    by_cases hrp : r = p
    · subst hrp
      rw [modify_self] at hr
      exact hf.elim id fun hkeep => h.valid r (hkeep hr)
    · rw [modify_of_ne _ _ _ hrp] at hr
      exact h.valid r hr
  unparked := h.unparked

theorem ended (hended : Ended p s s') : Framed s' := by
  rcases hended with ⟨_, rfl⟩ | ⟨_, hw⟩
  · exact h
  refine .woken ?_ hw
  refine (h.modify p (f := fun process => { process with terminationHandled := true })
    (.inr id)).congr rfl fun r hr => ?_
  rw [(reparent_proc _ p r).choose_spec] at hr
  exact hr

theorem killed (hkilled : Killed p s s') : Framed s' := by
  rcases hkilled with rfl | ⟨_, _, s0, hw, rfl⟩
  · exact h
  · exact (h.woken hw).modify p (.inr id)

end Framed

/-! ## Switching -/

variable {next : Ptr} {old : Option Ptr} {userRSP : Word}

theorem switchTo_valid {r : Ptr} (h : ((switchTo s c old next userRSP).proc r).validUserState) :
    old ≠ some r ∧ (s.proc r).validUserState := by
  cases old with
  | none => exact ⟨nofun, h⟩
  | some old =>
    by_cases hr : r = old
    · subst hr
      simp only [switchTo, setCpu, modify_self] at h
      cases h
    · simp only [switchTo, setCpu, modify_of_ne _ _ _ hr] at h
      exact ⟨fun heq => hr (Option.some.inj heq).symm, h⟩

theorem setState_valid (s : System) (p r : Ptr) (state : ProcessState) :
    ((s.setState p state).proc r).validUserState = (s.proc r).validUserState :=
  modify_keeps _ _ _ rfl r

section

variable (h : Framed s)

include h

/-- A process with a valid user state can be chosen by the CPU that runs it only. -/
theorem Framed.current_of_available (havailable : Available o c s next)
    (hvalid : (s.proc next).validUserState) : s.current c = some next := by
  obtain ⟨d, hd⟩ := h.valid next hvalid
  by_cases hdc : d = c
  · exact hdc ▸ hd
  · exact absurd hd (havailable.free d hdc)

theorem Framed.switched {s₁ : System}
    (hmade : Requeued ((s.setCurrent c (some next)).setState next .running) s₁) :
    Framed (switchTo s₁ c (s.current c) next userRSP) where
  valid r hr := by
    obtain ⟨hne, hr⟩ := switchTo_valid hr
    rw [hmade.proc, setState_valid] at hr
    obtain ⟨d, hd⟩ := h.valid r hr
    refine ⟨d, ?_⟩
    have hdc : d ≠ c := by
      rintro rfl
      exact hne hd
    rw [switchTo_current, hmade.current, setState_current, setCurrent_current, if_neg hdc]
    exact hd
  unparked d := by
    rw [switchTo_deferred, hmade.deferred, setState_deferred, setCurrent_deferred]
    exact h.unparked d

/-- A CPU goes on with a process, where it had none or the same. -/
theorem Framed.place (hleft : ∀ r, s.current c = some r → p = r) :
    Framed ((s.setCurrent c (some p)).setState p .running) where
  valid r hr := by
    rw [setState_valid] at hr
    obtain ⟨d, hd⟩ := h.valid r hr
    refine ⟨d, ?_⟩
    rw [setState_current, setCurrent_current]
    split
    · rename_i hdc
      rw [hleft r (hdc ▸ hd)]
    · exact hd
  unparked d := by
    rw [setState_deferred, setCurrent_deferred]
    exact h.unparked d

theorem Framed.unpark (hunparked : Unparked c s s') : Framed s' := by
  rcases hunparked with ⟨_, rfl⟩ | hw
  · exact h
  refine .woken ⟨fun p hp => ?_, fun d => ?_⟩ hw
  · obtain ⟨d, hd⟩ := h.valid p hp
    exact ⟨d, (setDeferred_current ..).trans hd⟩
  · rw [setDeferred_deferred]
    split
    · rfl
    · exact h.unparked d

theorem Framed.withProcess {process : Process} (hnew : process.validUserState = false) : Framed
    (s.withProcess process) where
  valid r hr := by
    by_cases hrp : r = s.created
    · subst hrp
      simp only [System.withProcess, Function.update_self, hnew] at hr
      cases hr
    · simp only [System.withProcess, Function.update_of_ne hrp] at hr
      exact h.valid r hr
  unparked := h.unparked

/-- A process that is deleted while it runs has no valid user state any more. -/
theorem Framed.vacate (hcur : s.current c = some p) :
    Framed ((s.setCurrent c none).modify p fun process =>
      { process with validUserState := false }) where
  valid r hr := by
    have hrp : r ≠ p := by
      rintro rfl
      rw [modify_self] at hr
      cases hr
    rw [modify_of_ne _ _ _ hrp] at hr
    obtain ⟨d, hd⟩ := h.valid r hr
    refine ⟨d, ?_⟩
    have hdc : d ≠ c := by
      rintro rfl
      exact hrp (Option.some.inj (hd.symm.trans hcur))
    rw [modify_current, setCurrent_current, if_neg hdc]
    exact hd
  unparked d := by
    rw [modify_deferred, setCurrent_deferred]
    exact h.unparked d

/-! ## Runs -/

theorem Framed.move (hmove : Move o (fun _ process => process.validUserState = false) s s') :
    Framed s' := by
  cases hmove with
  | woken hw => exact h.woken hw
  | reaped hreaped =>
    exact h.congr hreaped.cpus fun p hp => (hreaped.proc p).validUserState ▸ hp
  | killed _ hkilled => exact h.killed hkilled
  | ended _ _ hended => exact h.ended hended
  | own hcur f hkin hdead => exact h.modify _ (.inl ⟨_, hcur⟩)
  | affinity p mask => exact h.modify p (.inr id)
  | switched userRSP havailable hleft hmade => exact h.switched hmade
  | resumed havailable hleft hvalid hmade hpark =>
    have hcur := h.current_of_available havailable hvalid
    rcases hpark with rfl | ⟨p, _, _, hp, hne, _⟩
    · exact (h.place fun r hr => Option.some.inj (hcur.symm.trans hr)).requeued hmade
    · exact absurd (Option.some.inj (hp.symm.trans hcur)) hne
  | idles hnone hidle => exact h.place fun r hr => nomatch hnone.symm.trans hr
  | unparked hunparked => exact h.unpark hunparked
  | registers c high =>
    refine ⟨fun p hp => ?_, fun d => ?_⟩
    · obtain ⟨d, hd⟩ := h.valid p hp
      refine ⟨d, ?_⟩
      rw [setCpu_current]
      · exact hd
      · exact fun _ => rfl
    · rw [setCpu_deferred]
      · exact h.unparked d
      · exact fun _ => rfl
  | pid => exact ⟨h.valid, h.unparked⟩
  | made process hnew hfresh hmade => exact (h.withProcess hnew).requeued hmade
  | removed hp hdead hw =>
    refine .woken ?_ hw
    split
    · rename_i hcur
      exact ⟨(h.vacate hcur).valid, (h.vacate hcur).unparked⟩
    · exact ⟨h.valid, h.unparked⟩

theorem Framed.moves (hmoves : Moves o (fun _ process => process.validUserState = false) s s') :
    Framed s' := by
  induction hmoves with
  | refl => exact h
  | tail _ hmove ih => exact ih.move hmove

end

/-- The steps as the kernel takes them: a new process has no user state yet, and only
`schedule(frame)` parks. -/
def Op.Called : Op → Prop
  | .addProcess process => process.validUserState = false
  | .deferUntilNextEntry .. => False
  | _ => True

theorem Op.Called.creates {op : Op} (h : op.Called) {process : Process}
    (hprocess : op.creates s = some process) : process.validUserState = false := by
  cases op with
  | launch priority => cases hprocess; rfl
  | addProcess => cases hprocess; exact h
  | spawn c priority => obtain ⟨p, _, rfl⟩ := Option.map_eq_some_iff.mp hprocess; rfl
  | fork c =>
    obtain ⟨p, _, hp⟩ := Option.bind_eq_some_iff.mp hprocess
    split at hp
    · cases hp
    · cases hp
      rfl
  | threadCreate c => obtain ⟨p, _, rfl⟩ := Option.map_eq_some_iff.mp hprocess; rfl
  | _ => cases hprocess

theorem framed_of_reached (h : Reached (fun _ op => op.Called) s) : Framed s := by
  induction h with
  | boot online => exact ⟨nofun, fun _ => rfl⟩
  | @step s s' hs e op hpossible hop hstep ih =>
    have hparks : ¬ op.Parks := by
      cases op with
      | deferUntilNextEntry c p => exact hop.elim
      | _ => exact id
    have hreturns := (settled_of_reached hs).stepMoves
      (fun _ process => process.validUserState = false) e hpossible (fun ho => ho.elim)
      (fun process n hprocess => hop.creates hprocess) hparks
    exact ih.moves (hreturns.of_eq hstep).2

/-! ## What is kept of the registers -/

theorem Roused.high {sig : Prop} {a b : Process} (h : Roused sig a b) : b.high = a.high :=
  show b.fixed.high = a.fixed.high from congrArg Process.high h.fixed

theorem Killed.high (h : Killed p s s') (r : Ptr) : (s'.proc r).high = (s.proc r).high := by
  rcases h with rfl | ⟨_, _, s0, hw, rfl⟩
  · rfl
  · rw [← (hw.proc r).high]
    exact modify_keeps _ _ _ rfl r

theorem Ended.high (h : Ended p s s') (r : Ptr) : (s'.proc r).high = (s.proc r).high := by
  rcases h with ⟨_, rfl⟩ | ⟨_, hw⟩
  · rfl
  · rw [(hw.proc r).high, (reparent_proc _ p r).choose_spec]
    exact modify_keeps (g := Process.high) _ _ _ rfl r

theorem saveUserState_high (s : System) (p r : Ptr) (frame : InterruptFrame) :
    ((saveUserState s p frame).proc r).high = (s.proc r).high := by
  unfold saveUserState
  split
  · exact modify_keeps _ _ _ rfl r
  · rfl

theorem setState_high (s : System) (p r : Ptr) (state : ProcessState) :
    ((s.setState p state).proc r).high = (s.proc r).high :=
  modify_keeps _ _ _ rfl r

theorem Interrupted.high (h : Interrupted c frame s s') (r : Ptr) :
    (s'.proc r).high = (s.proc r).high := by
  cases h with
  | nobody hcur => rfl
  | @process p s₁ s₂ _ hcur hkilled hended hready =>
    have hmid : (s₂.proc r).high = (s.proc r).high := by
      rcases hended with ⟨_, hended⟩ | ⟨_, rfl⟩
      · exact (hended.high r).trans (hkilled.high r)
      · exact hkilled.high r
    rw [← hmid, ← saveUserState_high s₂ p r frame]
    rcases hready with ⟨_, hqueue⟩ | ⟨_, rfl⟩
    · rw [hqueue.proc, setState_high]
    · rfl

/-- The registers of an interrupted user program are in its context. -/
theorem Interrupted.context (h : Interrupted c frame s s') (hcur : s.current c = some p)
    (huser : frame.cs = userCodeSelector) : (s'.proc p).context = frame.registers := by
  cases h with
  | nobody hnone => rw [hnone] at hcur; cases hcur
  | @process r s₁ s₂ _ hcur' hkilled hended hready =>
    cases hcur'.symm.trans hcur
    have hsaved : ((saveUserState s₂ p frame).proc p).context = frame.registers := by
      rw [saveUserState, if_pos (by simp [huser]), modify_self]
    rcases hready with ⟨_, hqueue⟩ | ⟨_, rfl⟩
    · rw [hqueue.proc, setState, modify_self]
      exact hsaved
    · exact hsaved

section

variable (h : FrameChosen o c frame s s' old next)

include h

theorem FrameChosen.high (r : Ptr) :
    (s'.proc r).high = (s.proc r).high ∧ (s'.cpus c).high = (s.cpus c).high := by
  obtain ⟨s₁, s₂, hreaped, _, hint, hsame, _⟩ := h
  rw [hsame.proc, hint.high, (hreaped.proc r).high, hsame.cpus, hint.cpus, hreaped.cpus]
  exact ⟨rfl, rfl⟩

theorem FrameChosen.old_eq : old = s.current c := by
  obtain ⟨s₁, s₂, hreaped, hold, _⟩ := h
  rw [hold, current_eq hreaped.cpus]

theorem FrameChosen.context (hcur : s.current c = some p)
    (huser : frame.cs = userCodeSelector) : (s'.proc p).context = frame.registers := by
  obtain ⟨s₁, s₂, hreaped, _, hint, hsame, _⟩ := h
  rw [hsame.proc]
  exact hint.context ((current_eq hreaped.cpus c).trans hcur) huser

end

theorem switchTo_saves {old : Ptr} (hidle : s.idle c ≠ some old) :
    ((switchTo s c (some old) next userRSP).proc old).high = (s.cpus c).high := by
  simp only [switchTo, setCpu, modify_self, if_neg hidle]

theorem switchTo_loads (hne : old ≠ some next) :
    ((switchTo s c old next userRSP).cpus c).high = (s.proc next).high := by
  cases old with
  | none => simp only [switchTo, setCpu_cpus, if_pos]
  | some old =>
    have hnext : next ≠ old := fun heq => hne (heq ▸ rfl)
    simp only [switchTo, setCpu_cpus, if_pos, modify_of_ne _ _ _ hnext]

/-- How a call of `schedule(frame)` treats the registers: it goes back through the frame to
the process it interrupted only, which finds the frame and `r12` to `r15` as they were; a
process that is left for another one through its kernel context has `r12` to `r15` kept,
and the other one gets back its own. -/
structure RegistersKept (c : Cpu) (frame : InterruptFrame) (s : System) (r : Resumed)
    (s' : System) : Prop where
  frame : ∀ next frame', r = .frame next frame' → s.current c = some next ∧
    (s'.cpus c).high = (s.cpus c).high ∧ (frame.cs = userCodeSelector → frame' = frame)
  saved : ∀ next p, r = .kernel next → s.current c = some p → s.idle c ≠ some p →
    (s'.proc p).high = (s.cpus c).high
  loaded : ∀ next, r = .kernel next → s.current c ≠ some next →
    (s'.cpus c).high = (s.proc next).high

theorem FrameScheduled.registersKept {r : Resumed} (hframed : Framed s)
    (h : FrameScheduled o c frame s r s') : RegistersKept c frame s r s' := by
  -- the process that is resumed through the frame is the one that was interrupted
  have hback : ∀ {s3 s4 : System} {old : Option Ptr} {next : Ptr},
      FrameChosen o c frame s s3 old next →
      Requeued ((s3.setCurrent c (some next)).setState next .running) s4 →
      (s4.proc next).validUserState → s.current c = some next := by
    intro s3 s4 old next hchosen hmade hvalid
    rw [hmade.proc, setState_valid] at hvalid
    have hframed3 : Framed s3 := hframed.moves hchosen.moves
    have hcur := hframed3.current_of_available hchosen.ready.2 hvalid
    rw [hchosen.current, hchosen.old_eq] at hcur
    exact hcur
  have hcpus : ∀ {s3 s4 : System} {next : Ptr},
      Requeued ((s3.setCurrent c (some next)).setState next .running) s4 →
      (s4.cpus c).high = (s3.cpus c).high := by
    intro s3 s4 next hmade
    rw [hmade.cpus]
    change ((s3.setCurrent c (some next)).cpus c).high = _
    rw [setCurrent, setCpu_cpus, if_pos rfl]
  cases h with
  | same => exact ⟨by simp, by simp, by simp⟩
  | @frame s3 s4 old next hchosen hmade hvalid hstay =>
    refine ⟨?_, by simp, by simp⟩
    rintro next frame' ⟨⟩
    have hcur := hback hchosen hmade hvalid
    refine ⟨hcur, (hcpus hmade).trans (hchosen.high 0).2, fun huser => ?_⟩
    have hcontext : (s'.proc next).context = frame.registers := by
      rw [hmade.proc, setState, modify_self]
      exact hchosen.context hcur huser
    rw [returnFrame, if_pos (by simp [huser]), hcontext]
  | parked hchosen hmade hvalid hne hidle hunparked hqueue =>
    have hcur := hback hchosen hmade hvalid
    exact absurd (Option.some.inj (hchosen.old_eq.trans hcur)) hne
  | @kernel s3 s4 old next userRSP hchosen hmade hvalid =>
    refine ⟨by simp, ?_, ?_⟩
    · rintro next p ⟨⟩ hcur hidle
      have hold : old = some p := hchosen.old_eq.trans hcur
      have hidle4 : s4.idle c ≠ some p := by
        obtain ⟨s₁, s₂, hreaped, _, hint, hsame, _⟩ := hchosen
        rw [hmade.idle, setState_idle, setCurrent_idle, hsame.idle,
          idle_eq hint.cpus, idle_eq hreaped.cpus]
        exact hidle
      rw [hold, switchTo_saves hidle4, hcpus hmade]
      exact (hchosen.high 0).2
    · rintro next ⟨⟩ hcur
      rw [switchTo_loads (hchosen.old_eq ▸ hcur), hmade.proc, setState_high]
      exact (hchosen.high next).1

/-- In every reachable state the queued processes have no valid user state and none is
parked; inside `schedule(frame)`, where the next process is chosen, the same holds of all
queued processes but the one that was interrupted; and so the call keeps the registers. -/
theorem preemption_keeps_registers (h : Reached (fun _ op => op.Called) s) :
    (∃ q, Intact s q ∧ ∀ i, ∀ p ∈ q i, (s.proc p).validUserState = false) ∧
    (∀ d, s.deferred d = none) ∧ ∀ env c frame, s.idle c ≠ none →
      (∀ s₁ s₂, reapTerminated s env c = some s₁ → interruptCurrent s₁ env c frame = some s₂ →
        ∃ q : ProcessPriority → List Ptr,
          (∀ i, IntrusiveList.Linked s₂.next (s₂.readyQueues i) (q i)) ∧
          (∀ d, s₂.deferred d = none) ∧
          ∀ i, ∀ p ∈ q i, s.current c ≠ some p → (s₂.proc p).validUserState = false) ∧
      ∃ r s', scheduleFrame s env c frame = some (r, s') ∧ RegistersKept c frame s r s' := by
  have hs := settled_of_reached h
  have hframed := framed_of_reached h
  refine ⟨?_, hframed.unparked, fun env c frame hidle => ⟨fun s₁ s₂ hreap hint => ?_, ?_⟩⟩
  · obtain ⟨q, hq⟩ := hs.intact
    refine ⟨q, hq, fun i p hp => Bool.eq_false_iff.mpr fun hvalid => ?_⟩
    obtain ⟨d, hd⟩ := hframed.valid p hvalid
    exact (hq.off i p hp d).1 hd
  · have hs₁ := ((hs.leave (some c)).reapTerminated env c).of_eq hreap
    have hs₂ := (hs₁.1.interruptCurrent (fun ho => ho.elim) frame).of_eq hint
    have hframed₂ : Framed s₂ := hframed.moves
      ((Relation.ReflTransGen.single (.reaped (o := False) hs₁.2.1)).trans hs₂.2.moves)
    have hcur : s₂.current c = s.current c :=
      (System.current_eq hs₂.2.cpus c).trans (System.current_eq hs₁.2.1.cpus c)
    obtain ⟨q, hq⟩ := hs₂.1
    refine ⟨q, hq.lists.linked, hframed₂.unparked, fun i p hp hne =>
      Bool.eq_false_iff.mpr fun hvalid => ?_⟩
    obtain ⟨d, hd⟩ := hframed₂.valid p hvalid
    refine (hq.off i p hp).1 d (fun heq => ?_) hd
    cases heq
    exact hne (hcur.symm.trans hd)
  · obtain ⟨⟨r, s'⟩, hreturn, _, hscheduled⟩ :=
      (hs.leave (some c)).scheduleFrame hidle (hs.mayLeave c) frame
    exact ⟨r, s', hreturn, hscheduled.registersKept hframed⟩

theorem preemption_keeps_registers_busy :
    (∃ q, Intact sampleBusy q ∧ ∀ i, ∀ p ∈ q i, (sampleBusy.proc p).validUserState = false) ∧
      sampleBusy.current 0 = some 18 ∧ sampleBusy.readyQueues 1 = some 17 ∧
      ∀ frame, ∃ r s', scheduleFrame sampleBusy sampleEnv 0 frame = some (r, s') ∧
        RegistersKept 0 frame sampleBusy r s' := by
  have hall := preemption_keeps_registers (reached_busy (fun _ _ => trivial) fun _ _ => trivial)
  exact ⟨hall.1, by decide +kernel, by decide +kernel,
    fun frame => (hall.2.2 sampleEnv 0 frame (by decide +kernel)).2⟩

end InstantOS.Sched

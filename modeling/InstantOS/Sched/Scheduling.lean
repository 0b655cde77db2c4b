import InstantOS.Sched.Switching

/-!
# One call of the scheduler

`schedule()` and `schedule(frame)` as relations between the systems before and after, with
the lemma that the calls return, end with sound queues and are described by the relation.
-/

namespace InstantOS.Sched

open Sched.System

variable {o : Prop} {e : Option Cpu} {s s' : System} {q : ProcessPriority → List Ptr} {env : Env}
  {c : Cpu} {p : Ptr}

section

variable (h : Requeued s s')

include h

theorem Requeued.proc : s'.proc = s.proc := by rw [h]

theorem Requeued.cpus : s'.cpus = s.cpus := by rw [h]

theorem Requeued.current (d : Cpu) : s'.current d = s.current d := by rw [h]; rfl

theorem Requeued.idle (d : Cpu) : s'.idle d = s.idle d := by rw [h]; rfl

theorem Requeued.deferred (d : Cpu) : s'.deferred d = s.deferred d := by
  rw [h]; rfl

end

theorem Killed.cpus (h : Killed p s s') : s'.cpus = s.cpus := by
  rcases h with rfl | ⟨_, _, s0, hw, rfl⟩
  · rfl
  · exact hw.cpus

theorem Ended.cpus (h : Ended p s s') : s'.cpus = s.cpus := by
  rcases h with ⟨_, rfl⟩ | ⟨_, hw⟩
  · rfl
  · exact hw.cpus

theorem System.current_eq (h : s'.cpus = s.cpus) (d : Cpu) : s'.current d = s.current d := by
  rw [current, h, current]

theorem System.idle_eq (h : s'.cpus = s.cpus) (d : Cpu) : s'.idle d = s.idle d := by
  rw [idle, h, idle]

/-! ## Reports -/

/-- What a process is called, whose child it is, and whether its end was reported. -/
structure Kin (a b : Process) : Prop where
  pid : b.pid = a.pid
  parentPID : b.parentPID = a.parentPID
  thread : b.thread = a.thread
  handled : b.terminationHandled = a.terminationHandled

theorem Kin.refl (a : Process) : Kin a a := ⟨rfl, rfl, rfl, rfl⟩

theorem Roused.kin {sig : Prop} {a b : Process} (h : Roused sig a b) : Kin a b where
  pid := show b.fixed.pid = a.fixed.pid from congrArg Process.pid h.fixed
  parentPID := h.parentPID
  thread := h.thread
  handled := show b.fixed.terminationHandled = a.fixed.terminationHandled from
    congrArg Process.terminationHandled h.fixed

/-- The end of the process this CPU leaves has been reported. -/
def Reported (c : Cpu) (s : System) : Prop :=
  ∀ p ∈ s.all, s.current c = some p → (s.proc p).state = .terminated →
    (s.proc p).thread ∨ (s.proc p).terminationHandled

theorem Ended.reported (h : Ended p s s') :
    (s'.proc p).thread ∨ (s'.proc p).terminationHandled := by
  rcases h with ⟨hyes, rfl⟩ | ⟨_, hw⟩
  · exact hyes
  · refine .inr ?_
    rw [(hw.proc p).kin.handled, (reparent_proc _ p p).choose_spec]
    exact congrArg Process.terminationHandled (modify_self ..)

/-! ## Parking -/

/-- `onKernelEntry`. -/
def Unparked (c : Cpu) (s s' : System) : Prop :=
  s.deferred c = none ∧ s' = s ∨ Woken False (s.setDeferred c none) s'

/-- Another process, or none, is parked on a CPU. -/
theorem Sound.setDeferred (h : Sound o e x s q) (c : Cpu) (r : Option Ptr) (y : Option Ptr)
    (hparked : ∀ p, r = some p → p < s.created ∧ (∀ i, p ∉ q i) ∧ (∀ d, s.idle d ≠ some p) ∧
      (o → p ∈ s.all)) (hqueued : ∀ p ∈ s.all, y ≠ some p → (s.proc p).state = .ready →
      (∀ d, (s.setDeferred c r).deferred d ≠ some p) → p ∈ q (s.proc p).priority) :
    Sound o e y (s.setDeferred c r) q := by
  have hdef : ∀ d p, (s.setDeferred c r).deferred d = some p →
      r = some p ∨ s.deferred d = some p := by
    intro d p hp
    rw [setDeferred_deferred] at hp
    split at hp
    · exact .inl hp
    · exact .inr hp
  refine { h with
    queued := hqueued, placed := ?_, off := ?_, running := ?_
    single := ?_, idle := ?_, held := ?_ }
  · rintro d p (hp | hp | hp)
    · exact h.placed d p (.inl (setDeferred_current .. ▸ hp))
    · exact h.placed d p (.inr (.inl (setDeferred_idle .. ▸ hp)))
    · rcases hdef d p hp with hr | hp
      · exact (hparked p hr).1
      · exact h.placed d p (.inr (.inr hp))
  · intro i p hp
    refine ⟨fun d hd => ?_, fun d => ⟨fun hd => ?_, ?_⟩⟩
    · rw [setDeferred_current]
      exact (h.off i p hp).1 d hd
    · rcases hdef d p hd with hr | hd
      · exact (hparked p hr).2.1 i hp
      · exact ((h.off i p hp).2 d).1 hd
    · rw [setDeferred_idle]
      exact ((h.off i p hp).2 d).2
  · intro d p
    rw [setDeferred_current, setDeferred_idle]
    exact h.running d p
  · intro d d' p
    rw [setDeferred_current, setDeferred_current]
    exact h.single d d' p
  · intro d p
    rw [setDeferred_idle]
    intro hd
    obtain ⟨hnot, hrest⟩ := h.idle d p hd
    refine ⟨hnot, fun d' => ?_⟩
    rw [setDeferred_idle, setDeferred_current]
    refine ⟨(hrest d').1, (hrest d').2.1, fun hp => ?_⟩
    rcases hdef d' p hp with hr | hp
    · exact (hparked p hr).2.2.1 d hd
    · exact (hrest d').2.2 hp
  · intro ho d p
    rw [setDeferred_current, setDeferred_idle]
    refine ⟨(h.held ho d p).1, fun hp => ?_⟩
    rcases hdef d p hp with hr | hp
    · exact (hparked p hr).2.2.2 ho
    · exact (h.held ho d p).2 hp

/-- A parked process is released, and may be ready without being queued. -/
theorem Sound.unpark (h : Sound o e none s q) (hp : s.deferred c = some p) :
    Sound o e (some p) (s.setDeferred c none) q := by
  refine h.setDeferred c none (some p) (fun r hr => by cases hr) fun r hr hne hready hdef => ?_
  refine h.queued r hr (by simp) hready fun d hd => ?_
  have hd' := hdef d
  rw [setDeferred_deferred] at hd'
  by_cases hdc : d = c
  · subst hdc
    exact hne (hp.symm.trans hd)
  · rw [if_neg hdc] at hd'
    exact hd' hd

theorem Settled.onKernelEntry (h : Settled o e s) (c : Cpu) :
    Returns (onKernelEntry s c) fun s' => Settled o e s' ∧ Unparked c s s' := by
  obtain ⟨q, h⟩ := h
  unfold Sched.onKernelEntry
  cases hp : s.deferred c with
  | none => exact returns_some ⟨⟨q, h⟩, .inl ⟨hp, rfl⟩⟩
  | some p =>
    have hloose := h.unpark hp
    have hkeep : ((s.setDeferred c none).proc p).state ≠ .ready →
        Settled o e (s.setDeferred c none) := fun hstate =>
      ⟨q, hloose.settle fun _ hready => absurd hready hstate⟩
    dsimp only
    split
    · have hidle : ∀ d, (s.setDeferred c none).idle d ≠ some p := fun d hd =>
        ((h.idle d p (setDeferred_idle .. ▸ hd)).2 c).2.2 hp
      have hlt : p < (s.setDeferred c none).created := h.placed c p (.inr (.inr hp))
      refine (hloose.addToReadyQueue (.inr rfl) hidle hlt fun ho => (h.held ho c p).2 hp).mono
        fun s' ⟨hsame, hs'⟩ => ?_
      exact ⟨hs', .inr (.of_requeued hsame)⟩
    · rename_i hstate
      refine ((hkeep (by rw [hstate]; simp)).wakeParentOf c p).mono fun s' ⟨hs', hw⟩ => ?_
      exact ⟨hs', .inr hw⟩
    · rename_i hready _
      exact returns_some ⟨hkeep hready, .inr (.refl _)⟩

section

variable (h : Unparked c s s')

include h

theorem Unparked.idle (d : Cpu) : s'.idle d = s.idle d := by
  rcases h with ⟨_, rfl⟩ | hw
  · rfl
  · rw [idle_eq hw.cpus, setDeferred_idle]

theorem Unparked.deferred_self : s'.deferred c = none := by
  rcases h with ⟨hnone, rfl⟩ | hw
  · exact hnone
  · rw [deferred, hw.cpus]
    exact (setDeferred_deferred ..).trans (if_pos rfl)

theorem Unparked.all : s'.all = s.all := by
  rcases h with ⟨_, rfl⟩ | hw
  · rfl
  · exact hw.all

theorem Unparked.created : s'.created = s.created := by
  rcases h with ⟨_, rfl⟩ | hw
  · rfl
  · exact hw.created

end

/-- A process that is in no queue is parked. -/
theorem Sound.park (h : Sound o e (some p) s q) (hnone : s.deferred c = none)
    (hout : ∀ i, p ∉ q i) (hidle : ∀ d, s.idle d ≠ some p) (hlt : p < s.created)
    (hlive : o → p ∈ s.all) : Sound o e none (s.setDeferred c (some p)) q := by
  refine h.setDeferred c (some p) none (fun r hr => ?_) fun r hr _ hready hdef => ?_
  · cases hr
    exact ⟨hlt, hout, hidle, hlive⟩
  · have hpr : some p ≠ some r := by
      have hc := hdef c
      rwa [setDeferred_deferred, if_pos rfl] at hc
    refine h.queued r hr hpr hready fun d => ?_
    have hd := hdef d
    rw [setDeferred_deferred] at hd
    by_cases hdc : d = c
    · subst hdc
      rw [hnone]
      simp
    · rwa [if_neg hdc] at hd

theorem Settled.deferUntilNextEntry (h : Settled o e s) (c : Cpu) (hidle : ∀ d, s.idle d ≠ some p)
    (hlt : p < s.created) (hlive : o → p ∈ s.all) :
    Returns (deferUntilNextEntry s c p) fun s' => Settled o e s' ∧
      ∃ s₁ s₂, Unparked c s s₁ ∧ Requeued s₁ s₂ ∧ s' = s₂.setDeferred c (some p) := by
  refine (h.onKernelEntry c).bind fun s₁ ⟨⟨q, hs1⟩, hun⟩ => ?_
  refine (hs1.removeFromReadyQueue p).bind fun s₂ ⟨hsame, q', hq', hmem⟩ => ?_
  refine returns_some ⟨⟨q', hq'.park ?_ (fun i hi => ((hmem i p).mp hi).1 rfl) (fun d => ?_) ?_
    fun ho => ?_⟩, s₁, s₂, hun, hsame, rfl⟩
  · rw [hsame.deferred]
    exact hun.deferred_self
  · rw [hsame.idle, hun.idle]
    exact hidle d
  · have hcreated : s₂.created = s₁.created := by rw [hsame]
    rw [hcreated, hun.created]
    exact hlt
  · have hall : s₂.all = s₁.all := by rw [hsame]
    rw [hall, hun.all]
    exact hlive ho

/-! ## `schedule()` -/

/-- What happens to the process that calls the scheduler, or is found terminated by it: it
may be killed on the way; a dead one is reported, one that runs becomes ready and is
queued, unless it is the idle process, and one that waits just waits. -/
inductive Left (c : Cpu) (s : System) : System → Prop
  | nobody (hcur : s.current c = none) : Left c s s
  | idle {p : Ptr} {s₁ : System} (hcur : s.current c = some p) (hkilled : Killed p s s₁)
      (hidle : s.idle c = some p) : Left c s s₁
  | ended {p : Ptr} {s₁ s₂ : System} (hcur : s.current c = some p) (hkilled : Killed p s s₁)
      (hidle : s.idle c ≠ some p) (hstate : (s₁.proc p).state = .terminated)
      (hended : Ended p s₁ s₂) : Left c s s₂
  | queued {p : Ptr} {s₁ s₂ : System} (hcur : s.current c = some p) (hkilled : Killed p s s₁)
      (hidle : s.idle c ≠ some p) (hstate : (s₁.proc p).state = .running)
      (hqueue : Requeued (s₁.setState p .ready) s₂) : Left c s s₂
  | waits {p : Ptr} {s₁ : System} (hcur : s.current c = some p) (hkilled : Killed p s s₁)
      (hidle : s.idle c ≠ some p) (hterminated : (s₁.proc p).state ≠ .terminated)
      (hrunning : (s₁.proc p).state ≠ .running) : Left c s s₁

theorem Left.cpus (h : Left c s s') : s'.cpus = s.cpus := by
  cases h with
  | nobody hcur => rfl
  | idle hcur hkilled hidle => exact hkilled.cpus
  | ended hcur hkilled hidle hstate hended => exact hended.cpus.trans hkilled.cpus
  | queued hcur hkilled hidle hstate hqueue => exact hqueue.cpus.trans hkilled.cpus
  | waits hcur hkilled hidle hterminated hrunning => exact hkilled.cpus

theorem Left.reported (h : Left c s s') (hs : Settled o e s') : Reported c s' := by
  intro p hp hcur hstate
  rw [current_eq h.cpus] at hcur
  have hidle : s.idle c ≠ some p := idle_eq h.cpus c ▸ hs.idle_ne hp c
  cases h with
  | nobody hnone => rw [hnone] at hcur; cases hcur
  | idle hcur' _ hidle' => cases hcur'.symm.trans hcur; exact absurd hidle' hidle
  | ended hcur' _ _ _ hended => cases hcur'.symm.trans hcur; exact hended.reported
  | @queued r s₁ _ hcur' _ _ _ hqueue =>
    cases hcur'.symm.trans hcur
    rw [hqueue.proc, setState_state] at hstate
    cases hstate
  | waits hcur' _ _ hterminated _ => cases hcur'.symm.trans hcur; exact absurd hstate hterminated

/-- The process its CPU is about to leave goes back into its queue. -/
theorem Settled.requeueCurrent (h : Settled o (some c) s) (hcur : s.current c = some p)
    (hidle : s.idle c ≠ some p) : Returns (addToReadyQueue (s.setState p .ready) p) fun s' =>
      Settled o (some c) s' ∧ Requeued (s.setState p .ready) s' := by
  obtain ⟨q, h⟩ := h
  have hloose : Sound o (some c) (some p) (s.setState p .ready) q := by
    refine h.modify p (.inl rfl) rfl (fun d hd hcur' => ?_) fun _ => .inl rfl
    exact absurd (congrArg some (h.single c d p hcur hcur')) hd
  have hne : ∀ d, (s.setState p .ready).idle d ≠ some p := by
    intro d hd
    have hdc := ((h.idle d p hd).2 c).2.1 hcur
    subst hdc
    exact hidle hd
  have hlt : p < (s.setState p .ready).created := h.placed c p (.inl hcur)
  have hlive : o → p ∈ s.all := fun ho => ((h.held ho c p).1 hcur).resolve_left hidle
  exact (hloose.addToReadyQueue (.inr rfl) hne hlt hlive).mono fun s' hs' => ⟨hs'.2, hs'.1⟩

/-- What an orderly run asks for when a CPU leaves its process. -/
def MayLeave (o : Prop) (c : Cpu) (s : System) : Prop :=
  o → ∀ p, s.current c = some p → s.idle c = some p ∨ Unhurt s p

theorem Settled.leaveCurrent (h : Settled o (some c) s) (hleave : MayLeave o c s) :
    Returns (leaveCurrent s env c) fun s' => Settled o (some c) s' ∧ Left c s s' := by
  unfold Sched.leaveCurrent
  cases hcur : s.current c with
  | none => exact returns_some ⟨h, .nobody hcur⟩
  | some p =>
    refine (h.terminateIfKilled hcur fun ho => hleave ho p hcur).bind fun s₁ ⟨hs1, hkilled⟩ => ?_
    have hcur1 : s₁.current c = some p := (current_eq hkilled.cpus c).trans hcur
    have hidle1 : s₁.idle c = s.idle c := idle_eq hkilled.cpus c
    rw [hidle1]
    split_ifs with hidle
    · exact returns_some ⟨hs1, .idle hcur hkilled hidle⟩
    split
    · rename_i hstate
      refine (hs1.onProcessTerminated c p).mono fun s₂ ⟨hs2, hended⟩ => ?_
      exact ⟨hs2, .ended hcur hkilled hidle hstate hended⟩
    · rename_i hstate
      refine (hs1.requeueCurrent hcur1 (hidle1 ▸ hidle)).mono fun s₂ ⟨hs2, hqueue⟩ => ?_
      exact ⟨hs2, .queued hcur hkilled hidle hstate hqueue⟩
    · rename_i hterminated hrunning
      exact returns_some ⟨hs1, .waits hcur hkilled hidle hterminated hrunning⟩

/-- A choice is made, the CPU runs it. -/
theorem Settled.choose (h : Settled o (some c) s) (hidle : s.idle c ≠ none) :
    Returns (getNextProcess s c) fun r => ∃ next s₃, r = (some next, s₃) ∧ Requeued s s₃ ∧
      Available o c s₃ next ∧ Settled o (some c) s₃ ∧
      Returns (makeCurrent s₃ c next) fun s₄ => Settled o none s₄ ∧
        Requeued ((s₃.setCurrent c (some next)).setState next .running) s₄ := by
  obtain ⟨q, h⟩ := h
  refine (h.takeFirst c [2, 1, 0]).mono fun r ⟨hsame, q', hq', hmem, hfrom⟩ => ?_
  obtain ⟨found, s₃⟩ := r
  obtain ⟨next, rfl, hnext⟩ : ∃ next, found = some next ∧
      (s₃.idle c = some next ∨ ∃ i, next ∈ q' i) := by
    rcases hfrom with hfrom | ⟨p, i, hfrom, hp⟩
    · obtain ⟨next, hnext⟩ := Option.ne_none_iff_exists'.mp hidle
      exact ⟨next, hfrom.trans hnext, .inl ((hsame.idle c).trans hnext)⟩
    · exact ⟨p, hfrom, .inr ⟨i, (hmem i p).mpr hp⟩⟩
  exact ⟨next, s₃, rfl, hsame, hq'.available hnext, ⟨q', hq'⟩, hq'.makeCurrent hnext⟩

/-- Registers of a CPU change. -/
theorem Settled.setCpu (h : Settled o e s) (c : Cpu) {f : PerCPU → PerCPU}
    (hcur : ∀ cpu, (f cpu).currentProcess = cpu.currentProcess)
    (hidle : ∀ cpu, (f cpu).idleProcess = cpu.idleProcess)
    (hdef : ∀ cpu, (f cpu).deferredProcess = cpu.deferredProcess) : Settled o e (s.setCpu c f) := by
  obtain ⟨q, h⟩ := h
  exact ⟨q, h.setCpus (funext fun d => s.setCpu_current c d f hcur)
    (funext fun d => s.setCpu_idle c d f hidle) (funext fun d => s.setCpu_deferred c d f hdef)⟩

theorem Settled.switchTo (h : Settled o e s) (c : Cpu) (old : Option Ptr) (next : Ptr)
    (userRSP : Word) : Settled o e (switchTo s c old next userRSP) := by
  unfold Sched.switchTo
  dsimp only
  refine Settled.setCpu ?_ c (fun _ => rfl) (fun _ => rfl) fun _ => rfl
  cases old with
  | none => exact h
  | some old =>
    obtain ⟨q, h⟩ := h
    exact ⟨q, h.modify_same old rfl rfl⟩

theorem switchTo_current (s : System) (c d : Cpu) (old : Option Ptr) (next : Ptr) (userRSP : Word) :
    (switchTo s c old next userRSP).current d = s.current d := by
  unfold switchTo
  rw [setCpu_current]
  · cases old <;> rfl
  · exact fun _ => rfl

theorem switchTo_deferred (s : System) (c d : Cpu) (old : Option Ptr) (next : Ptr)
    (userRSP : Word) : (switchTo s c old next userRSP).deferred d = s.deferred d := by
  unfold switchTo
  rw [setCpu_deferred]
  · cases old <;> rfl
  · exact fun _ => rfl

/-- `schedule()`. -/
def Scheduled (o : Prop) (c : Cpu) (s s' : System) : Prop :=
  ∃ s₁ s₂ s₃ s₄ next, Reaped s s₁ ∧ Left c s₁ s₂ ∧ Requeued s₂ s₃ ∧ Reported c s₃ ∧
    Available o c s₃ next ∧
    Requeued ((s₃.setCurrent c (some next)).setState next .running) s₄ ∧
    s' = switchTo s₄ c (s₃.current c) next (s₄.cpus c).userRSP

theorem Unhurt.reaped (h : Unhurt s p) (hreaped : Reaped s s') : Unhurt s' p := by
  have hp := hreaped.proc p
  rcases h with hrunning | hterminated | hno
  · exact .inl (hp.running hrunning)
  · exact .inr (.inl (hp.terminated.mpr hterminated))
  · refine .inr (.inr ?_)
    rw [Process.killPending, hp.pending id]
    exact hno

theorem MayLeave.reaped (h : MayLeave o c s) (hreaped : Reaped s s') : MayLeave o c s' := by
  intro ho p hp
  rw [current_eq hreaped.cpus] at hp
  rw [idle_eq hreaped.cpus]
  exact (h ho p hp).imp_right fun hunhurt => hunhurt.reaped hreaped

theorem Settled.schedule (h : Settled o (some c) s) (hidle : s.idle c ≠ none)
    (hleave : MayLeave o c s) :
    Returns (schedule s env c) fun s' => Settled o none s' ∧ Scheduled o c s s' := by
  refine (h.reapTerminated env c).bind fun s₁ ⟨hs1, hreaped, _⟩ => ?_
  refine (hs1.leaveCurrent (hleave.reaped hreaped)).bind fun s₂ ⟨hs2, hleft⟩ => ?_
  have hidle2 : s₂.idle c ≠ none := by
    rw [idle_eq hleft.cpus, idle_eq hreaped.cpus]
    exact hidle
  refine (hs2.choose hidle2).bind fun r ⟨next, s₃, hr, hsame, hchosen, _, hmake⟩ => ?_
  subst hr
  have hreported : Reported c s₃ := by
    rw [hsame]
    exact hleft.reported hs2
  refine hmake.bind fun s₄ ⟨hs4, hmade⟩ => ?_
  exact returns_some ⟨hs4.switchTo c _ next _,
    s₁, s₂, s₃, s₄, next, hreaped, hleft, hsame, hreported, hchosen, hmade, rfl⟩

/-! ## `schedule(frame)` -/

/-- What happens to the process that was interrupted: it may be killed, a dead one is
reported, the registers of a user program are kept, and one that ran is ready and queued. -/
inductive Interrupted (c : Cpu) (frame : InterruptFrame) (s : System) : System → Prop
  | nobody (hcur : s.current c = none) : Interrupted c frame s s
  | process {p : Ptr} {s₁ s₂ s₃ : System} (hcur : s.current c = some p) (hkilled : Killed p s s₁)
      (hended : (s₁.proc p).state = .terminated ∧ Ended p s₁ s₂ ∨
        (s₁.proc p).state ≠ .terminated ∧ s₂ = s₁)
      (hready : (s₂.proc p).state = .running ∧
          Requeued ((saveUserState s₂ p frame).setState p .ready) s₃ ∨
        (s₂.proc p).state ≠ .running ∧ s₃ = saveUserState s₂ p frame) : Interrupted c frame s s₃

theorem saveUserState_state (s : System) (p r : Ptr) (frame : InterruptFrame) :
    ((saveUserState s p frame).proc r).state = (s.proc r).state := by
  unfold saveUserState
  split
  · exact modify_keeps _ _ _ rfl r
  · rfl

theorem saveUserState_cpus (s : System) (p : Ptr) (frame : InterruptFrame) :
    (saveUserState s p frame).cpus = s.cpus := by
  unfold saveUserState
  split <;> rfl

theorem Settled.saveUserState (h : Settled o e s) (p : Ptr) (frame : InterruptFrame) :
    Settled o e (saveUserState s p frame) := by
  obtain ⟨q, h⟩ := h
  unfold Sched.saveUserState
  split
  · exact ⟨q, h.modify_same p rfl rfl⟩
  · exact ⟨q, h⟩

theorem Killed.ended_cpus {s₁ : System} {b d : Prop} (hkilled : Killed p s s₁)
    (hended : b ∧ Ended p s₁ s' ∨ d ∧ s' = s₁) : s'.cpus = s.cpus := by
  rcases hended with ⟨_, hended⟩ | ⟨_, rfl⟩
  · exact hended.cpus.trans hkilled.cpus
  · exact hkilled.cpus

variable {frame : InterruptFrame}

theorem Interrupted.cpus (h : Interrupted c frame s s') : s'.cpus = s.cpus := by
  cases h with
  | nobody hcur => rfl
  | @process p s₁ s₂ _ hcur hkilled hended hready =>
    rw [← hkilled.ended_cpus hended, ← saveUserState_cpus s₂ p frame]
    rcases hready with ⟨_, hqueue⟩ | ⟨_, rfl⟩
    · exact hqueue.cpus
    · rfl

theorem Interrupted.not_running (h : Interrupted c frame s s')
    (hp : s.current c = some p) : (s'.proc p).state ≠ .running := by
  cases h with
  | nobody hcur => rw [hcur] at hp; cases hp
  | @process r s₁ s₂ _ hcur hkilled hended hready =>
    cases hcur.symm.trans hp
    rcases hready with ⟨_, hqueue⟩ | ⟨hstate, rfl⟩
    · rw [hqueue.proc]
      simp
    · rw [saveUserState_state]
      exact hstate

theorem Interrupted.reported (h : Interrupted c frame s s') : Reported c s' := by
  intro p _ hcur hstate
  rw [current_eq h.cpus] at hcur
  cases h with
  | nobody hnone => rw [hnone] at hcur; cases hcur
  | @process r s₁ s₂ _ hcur' hkilled hended hready =>
    cases hcur'.symm.trans hcur
    have hkin : Kin (s₂.proc p) ((saveUserState s₂ p frame).proc p) := by
      unfold saveUserState
      split
      · rw [modify_self]
        exact ⟨rfl, rfl, rfl, rfl⟩
      · exact .refl _
    rcases hready with ⟨_, hqueue⟩ | ⟨_, rfl⟩
    · rw [hqueue.proc, setState_state] at hstate
      cases hstate
    rw [saveUserState_state] at hstate
    rw [hkin.thread, hkin.handled]
    rcases hended with ⟨_, hended⟩ | ⟨hno, rfl⟩
    · exact hended.reported
    · exact absurd hstate hno

/-- The interrupted process is ready, and in its queue unless it is the idle process. -/
theorem Settled.readyCurrent (h : Settled o (some c) s) (hcur : s.current c = some p) :
    Returns (if s.idle c = some p then some (s.setState p .ready)
        else addToReadyQueue (s.setState p .ready) p) fun s' =>
      Settled o (some c) s' ∧ Requeued (s.setState p .ready) s' := by
  split_ifs with hidle
  · obtain ⟨q, h⟩ := h
    refine returns_some ⟨⟨q, (h.modify p (.inl rfl) rfl (fun d hd hcur' => ?_)
      fun _ => .inl rfl).settle fun hall => ?_⟩, .refl _⟩
    · exact absurd (congrArg some (h.single c d p hcur hcur')) hd
    · exact absurd hall (h.idle c p hidle).1
  · exact h.requeueCurrent hcur hidle

theorem Settled.interruptCurrent (h : Settled o (some c) s) (hleave : MayLeave o c s)
    (frame : InterruptFrame) : Returns (interruptCurrent s env c frame) fun s' =>
      Settled o (some c) s' ∧ Interrupted c frame s s' := by
  unfold Sched.interruptCurrent
  dsimp only
  cases hcur : s.current c with
  | none => exact returns_some ⟨h, .nobody hcur⟩
  | some p =>
    have hkill : Returns (if s.idle c ≠ some p ∧ frame.cs == userCodeSelector then
        Sched.terminateIfKilled s env p else some s)
        fun s' => Settled o (some c) s' ∧ Killed p s s' := by
      split
      · exact h.terminateIfKilled hcur fun ho => hleave ho p hcur
      · exact returns_some ⟨h, .inl rfl⟩
    refine hkill.bind fun s₁ ⟨hs1, hkilled⟩ => ?_
    have hend : Returns (if (s₁.proc p).state = .terminated then
        Sched.onProcessTerminated s₁ c p else some s₁) fun s₂ => Settled o (some c) s₂ ∧
        ((s₁.proc p).state = .terminated ∧ Ended p s₁ s₂ ∨
          (s₁.proc p).state ≠ .terminated ∧ s₂ = s₁) := by
      split_ifs with hstate
      · exact (hs1.onProcessTerminated c p).mono fun s₂ hs2 => ⟨hs2.1, .inl ⟨hstate, hs2.2⟩⟩
      · exact returns_some ⟨hs1, .inr ⟨hstate, rfl⟩⟩
    refine hend.bind fun s₂ ⟨hs2, hended⟩ => ?_
    have hcur2 : (Sched.saveUserState s₂ p frame).current c = some p := by
      rw [current_eq (saveUserState_cpus s₂ p frame), current_eq (hkilled.ended_cpus hended), hcur]
    have hs3 := hs2.saveUserState p frame
    rw [saveUserState_state]
    split
    · rename_i hstate
      refine (hs3.readyCurrent hcur2).mono fun s₄ ⟨hs4, hqueue⟩ => ?_
      exact ⟨hs4, .process hcur hkilled hended (.inl ⟨hstate, hqueue⟩)⟩
    · rename_i hstate
      exact returns_some ⟨hs3, .process hcur hkilled hended (.inr ⟨hstate, rfl⟩)⟩

/-- `schedule(frame)` up to the choice of the next process. -/
def FrameChosen (o : Prop) (c : Cpu) (frame : InterruptFrame) (s s₃ : System) (old : Option Ptr)
    (next : Ptr) : Prop :=
  ∃ s₁ s₂, Reaped s s₁ ∧ old = s₁.current c ∧ Interrupted c frame s₁ s₂ ∧ Requeued s₂ s₃ ∧
    Reported c s₃ ∧ Available o c s₃ next

/-- `schedule(frame)`.  The branches of the source that go back to an interrupted process
whose state is running are not among the cases: it is ready by then. -/
inductive FrameScheduled (o : Prop) (c : Cpu) (frame : InterruptFrame) (s : System) :
    Resumed → System → Prop
  | same {s₃ : System} {old : Option Ptr} {next : Ptr}
      (hchosen : FrameChosen o c frame s s₃ old next)
      (hold : old = some next) (hidle : next ∉ s₃.all) :
      FrameScheduled o c frame s .same (s₃.setState next .running)
  | frame {s₃ s₄ : System} {old : Option Ptr} {next : Ptr}
      (hchosen : FrameChosen o c frame s s₃ old next)
      (hmade : Requeued ((s₃.setCurrent c (some next)).setState next .running) s₄)
      (hvalid : (s₄.proc next).validUserState = true)
      (hstay : ∀ p, old = some p → p = next ∨ s₄.idle c = some p) :
      FrameScheduled o c frame s (.frame next (returnFrame frame (s₄.proc next).context)) s₄
  | parked {s₃ s₄ s₅ s₆ : System} {p next : Ptr}
      (hchosen : FrameChosen o c frame s s₃ (some p) next)
      (hmade : Requeued ((s₃.setCurrent c (some next)).setState next .running) s₄)
      (hvalid : (s₄.proc next).validUserState = true) (hne : p ≠ next)
      (hidle : s₄.idle c ≠ some p) (hunparked : Unparked c s₄ s₅) (hqueue : Requeued s₅ s₆) :
      FrameScheduled o c frame s (.frame next (returnFrame frame (s₄.proc next).context))
        (s₆.setDeferred c (some p))
  | kernel {s₃ s₄ : System} {old : Option Ptr} {next : Ptr} {userRSP : Word}
      (hchosen : FrameChosen o c frame s s₃ old next)
      (hmade : Requeued ((s₃.setCurrent c (some next)).setState next .running) s₄)
      (hvalid : (s₄.proc next).validUserState = false) :
      FrameScheduled o c frame s (.kernel next) (switchTo s₄ c old next userRSP)

theorem Settled.scheduleFrame (h : Settled o (some c) s) (hidle : s.idle c ≠ none)
    (hleave : MayLeave o c s) (frame : InterruptFrame) :
    Returns (scheduleFrame s env c frame) fun r =>
      Settled o none r.2 ∧ FrameScheduled o c frame s r.1 r.2 := by
  refine (h.reapTerminated env c).bind fun s₁ ⟨hs1, hreaped, _⟩ => ?_
  refine (hs1.interruptCurrent (hleave.reaped hreaped) frame).bind fun s₂ ⟨hs2, hint⟩ => ?_
  have hidle2 : s₂.idle c ≠ none := by
    rw [idle_eq hint.cpus, idle_eq hreaped.cpus]
    exact hidle
  refine (hs2.choose hidle2).bind fun r ⟨next, s₃, hr, hsame, hchosen, hs3, hmake⟩ => ?_
  subst hr
  have hstart : FrameChosen o c frame s s₃ (s₁.current c) next :=
    ⟨s₁, s₂, hreaped, rfl, hint, hsame, hsame ▸ hint.reported, hchosen⟩
  have hcur3 : s₃.current c = s₁.current c := (hsame.current c).trans (current_eq hint.cpus c)
  obtain ⟨q, hs3⟩ := hs3
  dsimp only
  split
  · rename_i hsameIdle
    refine returns_some ⟨?_, .same hstart hsameIdle.1 (hs3.idle c next hsameIdle.2).1⟩
    have hcur : s₃.current c = some next := hcur3.trans hsameIdle.1
    have hrun : Sound o (some c) none (s₃.setState next .running) q :=
      hs3.modifyCurrent (.inl rfl) hcur rfl (by simp)
        fun _ i hi => ((hs3.off i next hi).2 c).2 hsameIdle.2
    refine ⟨q, hrun.arrive fun p hp => ?_⟩
    cases hp.symm.trans hcur
    exact ⟨fun i hi => ((hrun.off i next hi).2 c).2 hsameIdle.2, .inl hsameIdle.2⟩
  · rename_i hnotIdle
    have hnever : ∀ p, s₁.current c = some p → ((s₃.proc p).state == .running) = false := by
      intro p hp
      rw [hsame.proc]
      simpa using hint.not_running hp
    have hstay : staysWith s₃ frame (s₁.current c) next = false := by
      unfold staysWith
      cases hold : s₁.current c with
      | none => rfl
      | some old => simp [hnever old hold]
    rw [hstay]
    dsimp only
    refine hmake.bind fun s₄ ⟨hs4, hmade⟩ => ?_
    split
    · rename_i hvalid
      cases hold : s₁.current c with
      | none =>
        exact returns_some ⟨hs4, .frame (hold ▸ hstart) hmade hvalid fun p hp => by cases hp⟩
      | some p =>
        dsimp only
        split
        · rename_i hpark
          have hidle4 : ∀ d, s₄.idle d = s₃.idle d := by
            intro d
            rw [hmade.idle, setState_idle, setCurrent_idle]
          have hnoidle : ∀ d, s₄.idle d ≠ some p := by
            intro d hd
            have hdc := ((hs3.idle d p (hidle4 d ▸ hd)).2 c).2.1 (hcur3.trans hold)
            subst hdc
            exact hpark.2 hd
          have hlive : o → p ∈ s₄.all := by
            intro ho
            have hall : s₄.all = s₃.all := by rw [hmade]; rfl
            rw [hall]
            exact ((hs3.held ho c p).1 (hcur3.trans hold)).resolve_left (hidle4 c ▸ hpark.2)
          have hlt : p < s₄.created := by
            have hcreated : s₄.created = s₃.created := by rw [hmade]; rfl
            rw [hcreated]
            exact hs3.placed c p (.inl (hcur3.trans hold))
          refine (hs4.deferUntilNextEntry c hnoidle hlt hlive).bind
            fun s' ⟨hs', s₅, s₆, hun, hq, hs6⟩ => ?_
          subst hs6
          exact returns_some ⟨hs', .parked (hold ▸ hstart) hmade hvalid hpark.1 hpark.2 hun hq⟩
        · rename_i hpark
          refine returns_some ⟨hs4, .frame (hold ▸ hstart) hmade hvalid fun r hr => ?_⟩
          cases hr
          by_cases hne : p = next
          · exact .inl hne
          · exact .inr (not_not.mp fun hidle => hpark ⟨hne, hidle⟩)
    · rename_i hvalid
      exact returns_some ⟨hs4.switchTo c _ next _,
        .kernel hstart hmade (Bool.eq_false_iff.mpr hvalid)⟩

end InstantOS.Sched

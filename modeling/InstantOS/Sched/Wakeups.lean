import InstantOS.Sched.ReadyQueues

/-!
# What waking up changes

`Woken` is what all wake-ups and signals may do to a system: a blocked process may become
ready, and its timers and, if signals are sent, its pending signals may change, but nothing
else about any process and nothing about the CPUs.  Every function of this module returns,
keeps `Sound` and stays within `Woken` or, if processes are deleted, within `Reaped`.
-/

namespace InstantOS.Sched

/-! ## The relation -/

/-- A process without the fields that wake-ups and signals change. -/
def Process.fixed (p : Process) : Process :=
  { p with
    state := .ready
    pending := 0
    exitCode := 0
    exitRequested := false
    sleeping := false
    sleepDeadlineMs := 0
    sleepWakesOnEvents := false
    alarmDeadlineMs := 0 }

theorem Process.priority_of_fixed {a b : Process} (h : b.fixed = a.fixed) :
    b.priority = a.priority :=
  show b.fixed.priority = a.fixed.priority from congrArg Process.priority h

/-- The process may have been woken; `sig` says whether a signal may have been sent. -/
structure Roused (sig : Prop) (a b : Process) : Prop where
  state : b.state = a.state ∨ a.state = .blocked ∧ b.state = .ready
  fixed : b.fixed = a.fixed
  pending : ¬ sig → b.pending = a.pending

namespace Roused

variable {sig : Prop} {a b c : Process}

theorem refl (a : Process) : Roused sig a a := ⟨.inl rfl, rfl, fun _ => rfl⟩

theorem weaken (h : Roused False a b) : Roused sig a b :=
  { h with pending := fun _ => h.pending id }

theorem trans (h : Roused sig a b) (h' : Roused sig b c) : Roused sig a c where
  state := by
    rcases h.state with hb | ⟨hblocked, hready⟩
    · rw [← hb]
      exact h'.state
    rcases h'.state with hc | ⟨hb, _⟩
    · exact .inr ⟨hblocked, hc.trans hready⟩
    · rw [hready] at hb
      cases hb
  fixed := h'.fixed.trans h.fixed
  pending hsig := (h'.pending hsig).trans (h.pending hsig)

theorem running (h : Roused sig a b) (ha : a.state = .running) : b.state = .running := by
  rcases h.state with hb | ⟨hblocked, _⟩
  · exact hb.trans ha
  · rw [ha] at hblocked
    cases hblocked

theorem terminated (h : Roused sig a b) : b.state = .terminated ↔ a.state = .terminated := by
  rcases h.state with hb | ⟨hblocked, hready⟩
  · rw [hb]
  · rw [hblocked, hready]
    simp

end Roused

/-- Some processes may have been woken. -/
structure Woken (sig : Prop) (s s' : System) : Prop where
  cpus : s'.cpus = s.cpus
  all : s'.all = s.all
  created : s'.created = s.created
  nextPID : s'.nextPID = s.nextPID
  deleted : s'.deleted = s.deleted
  proc : ∀ p, Roused sig (s.proc p) (s'.proc p)

namespace Woken

variable {sig : Prop} {s s' s'' : System}

theorem refl (s : System) : Woken sig s s := ⟨rfl, rfl, rfl, rfl, rfl, fun _ => .refl _⟩

theorem weaken (h : Woken False s s') : Woken sig s s' :=
  { h with proc := fun p => (h.proc p).weaken }

theorem trans (h : Woken sig s s') (h' : Woken sig s' s'') : Woken sig s s'' where
  cpus := h'.cpus.trans h.cpus
  all := h'.all.trans h.all
  created := h'.created.trans h.created
  nextPID := h'.nextPID.trans h.nextPID
  deleted := h'.deleted.trans h.deleted
  proc p := (h.proc p).trans (h'.proc p)

theorem of_requeued (h : Requeued s s') : Woken sig s s' := by
  rw [h]
  exact ⟨rfl, rfl, rfl, rfl, rfl, fun _ => .refl _⟩

variable {f : Process → Process}

theorem modify (s : System) (p : Ptr)
    (hf : Roused sig (s.proc p) (f (s.proc p))) : Woken sig s (s.modify p f) := by
  refine ⟨rfl, rfl, rfl, rfl, rfl, fun a => ?_⟩
  by_cases hap : a = p
  · subst hap
    simpa using hf
  · have hsame : (s.modify p f).proc a = s.proc a := Function.update_of_ne hap _ _
    rw [hsame]
    exact .refl _

theorem current (h : Woken sig s s') (d : Cpu) : s'.current d = s.current d := by
  rw [System.current, h.cpus, System.current]

theorem idle (h : Woken sig s s') (d : Cpu) : s'.idle d = s.idle d := by
  rw [System.idle, h.cpus, System.idle]

end Woken

/-! ## Waking -/

/-- The queues are sound, apart from the process of the CPU `e`. -/
def Settled (o : Prop) (e : Option Cpu) (s : System) : Prop := ∃ q, Sound o e none s q

/-- The queues are sound after some processes were woken. -/
abbrev Wakes (o : Prop) (e : Option Cpu) (sig : Prop) (s s' : System) : Prop :=
  Settled o e s' ∧ Woken sig s s'

section

variable {o : Prop} {e : Option Cpu} {s : System}

section

variable (h : Settled o e s)

include h

variable {p : Ptr}

theorem Settled.idle_ne (hp : p ∈ s.all) (d : Cpu) : s.idle d ≠ some p := by
  obtain ⟨q, h⟩ := h
  exact fun hd => (h.idle d p hd).1 hp

theorem Settled.lt (hp : p ∈ s.all) : p < s.created := by
  obtain ⟨q, h⟩ := h
  exact h.listed p (List.mem_append_right _ hp)

/-- A blocked process becomes ready, by `put` into its queue. -/
theorem Settled.rouse (hp : p ∈ s.all) (hblocked : (s.proc p).state = .blocked)
    (hready : (f (s.proc p)).state = .ready) (hfixed : (f (s.proc p)).fixed = (s.proc p).fixed)
    (hpending : (f (s.proc p)).pending = (s.proc p).pending) {put : System → Ptr → Option System}
    (hput : ∀ s q, Sound o e (some p) s q → (∀ d, s.idle d ≠ some p) → p < s.created →
      (o → p ∈ s.all) → Returns (put s p) fun s' => Requeued s s' ∧ ∃ q', Sound o e none s' q') :
    Returns (put (s.modify p f) p) (Wakes o e False s) := by
  have hidle := h.idle_ne hp
  have hlt := h.lt hp
  obtain ⟨q, h⟩ := h
  have hloose : Sound o e (some p) (s.modify p f) q := by
    refine h.modify p (.inl rfl) (Process.priority_of_fixed hfixed) (fun d hd hcur => ?_)
      fun _ => .inl hready
    rw [h.running d p hd hcur (hidle d)] at hblocked
    cases hblocked
  have hwoken : Woken False s (s.modify p f) :=
    .modify s p ⟨.inr ⟨hblocked, hready⟩, hfixed, fun _ => hpending⟩
  refine (hput _ q hloose hidle hlt fun _ => hp).mono fun s' ⟨hsame, hsettled⟩ => ?_
  exact ⟨hsettled, hwoken.trans (.of_requeued hsame)⟩

theorem Settled.wakeProcess (c : Cpu) (hp : s.idle c = some p ∨ p ∈ s.all) :
    Returns (wakeProcess s c p) (Wakes o e False s) := by
  unfold Sched.wakeProcess
  refine returns_unless ⟨h, .refl s⟩ fun hidle => ?_
  have hp := hp.resolve_left hidle
  split
  · have hne := h.idle_ne hp
    have hlt := h.lt hp
    obtain ⟨q, h⟩ := h
    refine (h.addToReadyQueueFront (.inl rfl) hne hlt fun _ => hp).mono
      fun s' ⟨hsame, hsettled⟩ => ?_
    exact ⟨hsettled, .of_requeued hsame⟩
  · rename_i hblocked
    exact h.rouse hp hblocked rfl rfl rfl fun s q hs => hs.addToReadyQueueFront (.inr rfl)
  · exact returns_some ⟨h, .refl s⟩

/-- Fields that no clause reads are changed, and then the system may wake processes. -/
theorem Settled.adjust (p : Ptr) (hf : (f (s.proc p)).fixed = (s.proc p).fixed)
    (hstate : (f (s.proc p)).state = (s.proc p).state) :
    Settled o e (s.modify p f) ∧ Woken True s (s.modify p f) := by
  obtain ⟨q, h⟩ := h
  exact ⟨⟨q, h.modify_same p (Process.priority_of_fixed hf) hstate⟩,
    .modify s p ⟨.inl hstate, hf, fun hno => absurd trivial hno⟩⟩

theorem Settled.sendSignal (c : Cpu)
    (hp : (s.proc p).state = .blocked → s.idle c = some p ∨ p ∈ s.all) (sig : Nat) :
    Returns (sendSignal s c p sig) fun s' => Settled o e s' ∧ Woken True s s' ∧
      ∀ r, r ≠ p → (s'.proc r).pending = (s.proc r).pending := by
  unfold Sched.sendSignal
  refine returns_unless ⟨h, .refl s, fun _ _ => rfl⟩ fun _ => ?_
  obtain ⟨hsettled, hwoken⟩ := h.adjust p
    (f := fun process => { process with pending := process.pending ||| BitVec.twoPow 64 sig })
    rfl rfl
  have hothers : ∀ r, r ≠ p → ((s.modify p fun process =>
      { process with pending := process.pending ||| BitVec.twoPow 64 sig }).proc r).pending =
        (s.proc r).pending := fun r hr => by rw [System.modify_of_ne _ _ _ hr]
  dsimp only
  split
  · rename_i hblocked
    rw [System.modify_self] at hblocked
    refine (hsettled.wakeProcess c (hp hblocked)).mono fun s' ⟨hs', hw⟩ => ?_
    exact ⟨hs', hwoken.trans hw.weaken, fun r hr => ((hw.proc r).pending id).trans (hothers r hr)⟩
  · exact returns_some ⟨hsettled, hwoken, hothers⟩

theorem Settled.requestExit (c : Cpu) (hp : p ∈ s.all) (code : Int) :
    Returns (requestExit s c p code) (Wakes o e True s) := by
  obtain ⟨hsettled, hwoken⟩ := h.adjust p
    (f := fun process => { process with exitRequested := true, exitCode := code }) rfl rfl
  refine (hsettled.sendSignal c (fun _ => .inr hp) sigKill).mono fun s' ⟨hs', hw, _⟩ => ?_
  exact ⟨hs', hwoken.trans hw⟩

end

theorem getProcessByPID_mem {c : Cpu} {pid : Nat}
    (hp : getProcessByPID s c pid = some p) : s.idle c = some p ∨ p ∈ s.all := by
  unfold getProcessByPID at hp
  split at hp
  · rename_i r hr
    split at hp
    · exact .inl (hr.trans hp)
    · exact .inr (List.mem_of_find?_eq_some hp)
  · exact .inr (List.mem_of_find?_eq_some hp)

section

variable (h : Settled o e s)

include h

theorem Settled.wakeParentOf (c : Cpu) (p : Ptr) :
    Returns (wakeParentOf s c p) (Wakes o e False s) := by
  unfold Sched.wakeParentOf
  refine returns_unless ⟨h, .refl s⟩ fun _ => ?_
  split
  · rename_i parent hparent
    split
    · exact h.wakeProcess c (getProcessByPID_mem hparent)
    · exact returns_some ⟨h, .refl s⟩
  · exact returns_some ⟨h, .refl s⟩

/-- A loop over all processes whose turns wake some of them. -/
theorem Settled.foldAll {sig : Prop} {turn : System → Ptr → Option System}
    (hturn : ∀ s' p, Settled o e s' → Woken sig s s' → p ∈ s'.all →
      Returns (turn s' p) (Wakes o e sig s')) :
    Returns (s.all.foldlM turn s) (Wakes o e sig s) := by
  refine returns_foldlM ⟨h, .refl s⟩ fun s' p hp ⟨hs', hw⟩ => ?_
  refine (hturn s' p hs' hw (hw.all ▸ hp)).mono fun s'' ⟨hs'', hw'⟩ => ?_
  exact ⟨hs'', hw.trans hw'⟩

theorem Settled.wakeAllBlockedProcesses (nowMs : Nat) :
    Returns (wakeAllBlockedProcesses s nowMs) (Wakes o e False s) := by
  refine h.foldAll fun s' p hs' _ hp => ?_
  unfold wakeBlocked
  dsimp only
  refine returns_unless ⟨hs', .refl s'⟩ fun hblocked => ?_
  refine returns_unless ⟨hs', .refl s'⟩ fun _ => ?_
  exact hs'.rouse hp (not_not.mp hblocked) rfl rfl rfl fun s q hs => hs.addToReadyQueue (.inr rfl)

theorem Settled.wakeExpiredSleepers (c : Cpu) (nowMs : Nat) :
    Returns (wakeExpiredSleepers s c nowMs) (Wakes o e True s) := by
  refine h.foldAll fun s' p hs' _ hp => ?_
  unfold wakeExpired
  dsimp only
  have halarm : Returns (if (s'.proc p).alarmDeadlineMs ≠ 0 ∧ (s'.proc p).alarmDeadlineMs ≤ nowMs
      then Sched.sendSignal (s'.modify p fun process =>
        { process with alarmDeadlineMs :=
            if process.alarmIntervalMs ≠ 0 then nowMs + process.alarmIntervalMs else 0 })
        c p sigAlrm
      else some s') (Wakes o e True s') := by
    split
    · obtain ⟨hsettled, hwoken⟩ := hs'.adjust p
        (f := fun process => { process with alarmDeadlineMs :=
            if process.alarmIntervalMs ≠ 0 then nowMs + process.alarmIntervalMs else 0 }) rfl rfl
      refine (hsettled.sendSignal c (fun _ => .inr hp) sigAlrm).mono fun s'' ⟨hs'', hw, _⟩ => ?_
      exact ⟨hs'', hwoken.trans hw⟩
    · exact returns_some ⟨hs', .refl s'⟩
  refine halarm.bind fun s'' ⟨hs'', hw⟩ => ?_
  split
  · rename_i hexpired
    refine (hs''.rouse (hw.all ▸ hp) hexpired.1 rfl rfl rfl
      fun s q hs => hs.addToReadyQueueFront (.inr rfl)).mono fun s3 ⟨hs3, hw'⟩ => ?_
    exact ⟨hs3, hw.trans hw'.weaken⟩
  · exact returns_some ⟨hs'', hw⟩

/-- The caller itself gets no signal. -/
theorem Settled.killSiblingThreads (c : Cpu) (p : Ptr) :
    Returns (killSiblingThreads s c p) fun s' => Settled o e s' ∧ Woken True s s' ∧
      (s'.proc p).pending = (s.proc p).pending := by
  refine returns_foldlM ⟨h, .refl s, rfl⟩ fun s' r hr ⟨hs', hw, hp⟩ => ?_
  unfold killSibling
  refine returns_unless ⟨hs', hw, hp⟩ fun hkill => ?_
  rw [not_or] at hkill
  refine (hs'.sendSignal c (fun _ => .inr (hw.all ▸ hr)) sigKill).mono
    fun s'' ⟨hs'', hw', hothers⟩ => ?_
  exact ⟨hs'', hw.trans hw', (hothers p fun heq => hkill.1 heq.symm).trans hp⟩

theorem Settled.exitThreadGroup (c : Cpu) (caller : Ptr) (code : Int) :
    Returns (exitThreadGroup s c caller code) (Wakes o e True s) := by
  have hleader : Returns (if (s.proc caller).thread then
      s.all.foldlM (requestLeaderExit c caller code) s else some s)
      (Wakes o e True s) := by
    split
    · refine h.foldAll fun s' r hs' _ hr => ?_
      unfold requestLeaderExit
      split
      · exact hs'.requestExit c hr code
      · exact returns_some ⟨hs', .refl s'⟩
    · exact returns_some ⟨h, .refl s⟩
  refine hleader.bind fun s' ⟨hs', hw⟩ => ?_
  exact (hs'.killSiblingThreads c caller).mono fun s'' ⟨hs'', hw', _⟩ => ⟨hs'', hw.trans hw'⟩

theorem Settled.closeFiles (env : Env) (p : Ptr) :
    Returns (closeFiles s env p) (Wakes o e False s) := by
  unfold Sched.closeFiles
  split
  · exact h.wakeAllBlockedProcesses env.nowMs
  · exact returns_some ⟨h, .refl s⟩

end

end

end InstantOS.Sched

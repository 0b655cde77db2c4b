import InstantOS.Sched.Wakeups

/-!
# Dying, reaping and switching

One lemma for each function of the scheduler that ends processes or changes what a CPU runs:
it returns, it keeps the queues sound, and it does no more than its relation says.  The
relations are what everything else about whole runs is derived from.
-/

namespace InstantOS.Sched

open Sched.System List

variable {o : Prop} {e : Option Cpu} {x : Option Ptr} {s s' s'' : System}
  {q : ProcessPriority → List Ptr} {env : Env}
  {c : Cpu} {p : Ptr}

/-! ## The end of a process -/

/-- `terminateIfKilled`: nothing, or the files are closed and the process is dead. -/
def Killed (p : Ptr) (s s' : System) : Prop :=
  s' = s ∨ (s.proc p).killPending ∧ (s.proc p).state ≠ .terminated ∧
    ∃ s₀, Woken True s s₀ ∧ s' = s₀.modify p Process.killed

/-- `onProcessTerminated`: nothing for a thread or the second time; otherwise the children
are orphans, and siblings and the parent may be woken. -/
def Ended (p : Ptr) (s s' : System) : Prop :=
  ((s.proc p).thread ∨ (s.proc p).terminationHandled) ∧ s' = s ∨
    ¬ ((s.proc p).thread ∨ (s.proc p).terminationHandled) ∧
      Woken True (reparent
        (s.modify p fun process => { process with terminationHandled := true }) p) s'

/-- Some processes that nobody waits for are gone. -/
structure Reaped (s s' : System) : Prop where
  cpus : s'.cpus = s.cpus
  created : s'.created = s.created
  nextPID : s'.nextPID = s.nextPID
  proc : ∀ p, Roused False (s.proc p) (s'.proc p)
  all : ∀ p ∈ s'.all, p ∈ s.all
  gone : ∀ p ∈ s.all, p ∉ s'.all → ¬ isBusyOnAnyCpu s p ∧ (s.proc p).state = .terminated ∧
    ((s.proc p).thread ∨ (s.proc p).parentPID = 0)
  deleted : ∀ p, p ∈ s'.deleted ↔ p ∈ s.deleted ∨ p ∈ s.all ∧ p ∉ s'.all

theorem Roused.thread {sig : Prop} {a b : Process} (h : Roused sig a b) : b.thread = a.thread :=
  show b.fixed.thread = a.fixed.thread from congrArg Process.thread h.fixed

theorem Roused.parentPID {sig : Prop} {a b : Process} (h : Roused sig a b) :
    b.parentPID = a.parentPID :=
  show b.fixed.parentPID = a.fixed.parentPID from congrArg Process.parentPID h.fixed

theorem isBusyOnAnyCpu_eq (h : s'.cpus = s.cpus) (p : Ptr) :
    isBusyOnAnyCpu s' p = isBusyOnAnyCpu s p := by
  simp only [isBusyOnAnyCpu, current, deferred, h]

theorem Reaped.of_woken (h : Woken False s s') : Reaped s s' where
  cpus := h.cpus
  created := h.created
  nextPID := h.nextPID
  proc := h.proc
  all p hp := h.all ▸ hp
  gone p hp hnot := absurd (h.all.symm ▸ hp) hnot
  deleted p := by
    rw [h.deleted, h.all]
    tauto

theorem Reaped.trans (h : Reaped s s') (h' : Reaped s' s'') : Reaped s s'' where
  cpus := h'.cpus.trans h.cpus
  created := h'.created.trans h.created
  nextPID := h'.nextPID.trans h.nextPID
  proc p := (h.proc p).trans (h'.proc p)
  all p hp := h.all p (h'.all p hp)
  gone p hp hnot := by
    by_cases hmid : p ∈ s'.all
    · have hgone := h'.gone p hmid hnot
      rwa [isBusyOnAnyCpu_eq h.cpus, (h.proc p).terminated, (h.proc p).thread,
        (h.proc p).parentPID] at hgone
    · exact h.gone p hp hmid
  deleted p := by
    rw [h'.deleted, h.deleted]
    have hmid := h.all p
    have hend := h'.all p
    tauto

/-- What `reapTerminated` looks for: a dead thread or orphan that no CPU is busy with. -/
def Reapable (s : System) (p : Ptr) : Prop :=
  ¬ isBusyOnAnyCpu s p ∧ (s.proc p).state = .terminated ∧
    ((s.proc p).thread ∨ (s.proc p).parentPID = 0)

theorem Reaped.reapable_iff (h : Reaped s s') (p : Ptr) : Reapable s' p ↔ Reapable s p := by
  unfold Reapable
  rw [(h.proc p).terminated, (h.proc p).thread, (h.proc p).parentPID, isBusyOnAnyCpu_eq h.cpus]

theorem Settled.leave (h : Settled o none s) (e : Option Cpu) : Settled o e s := by
  obtain ⟨q, h⟩ := h
  exact ⟨q, h.leave e⟩

/-- The process its CPU is about to leave takes another state, other than ready. -/
theorem Sound.modifyCurrent (h : Sound o (some c) x s q) (hx : x = none ∨ x = some p)
    (hcur : s.current c = some p) {f : Process → Process}
    (hprio : (f (s.proc p)).priority = (s.proc p).priority)
    (hstate : (f (s.proc p)).state ≠ .ready) (hout : o → ∀ i, p ∉ q i) :
    Sound o (some c) none (s.modify p f) q := by
  refine (h.modify p hx hprio (fun d hd hcur' => ?_) fun ho => .inr (hout ho)).settle
    fun _ hready => ?_
  · exact absurd (congrArg some (h.single c d p hcur hcur')) hd
  · rw [modify_self] at hready
    exact absurd hready hstate

/-- The process can be killed here: it is not waiting, or no `SIGKILL` is pending. -/
def Unhurt (s : System) (p : Ptr) : Prop :=
  (s.proc p).state = .running ∨ (s.proc p).state = .terminated ∨ (s.proc p).killPending = false

theorem Settled.terminateIfKilled (h : Settled o (some c) s) (hcur : s.current c = some p)
    (hunhurt : o → s.idle c = some p ∨ Unhurt s p) :
    Returns (terminateIfKilled s env p) fun s' => Settled o (some c) s' ∧ Killed p s s' := by
  unfold Sched.terminateIfKilled
  refine returns_unless ⟨h, .inl rfl⟩ fun hkill => ?_
  rw [not_or, not_not] at hkill
  obtain ⟨hsettled, hwoken⟩ := h.adjust p (f := fun process =>
    { process with pending := process.pending &&& ~~~ BitVec.twoPow 64 sigKill }) rfl rfl
  refine (hsettled.closeFiles env p).bind fun s₀ ⟨⟨q, hs0⟩, hw⟩ => ?_
  have hw := hwoken.trans hw.weaken
  -- a process that runs is not woken by the files it closes, so it is in no queue
  have hout : o → ∀ i, p ∉ q i := by
    intro ho i hi
    rcases hunhurt ho with hidle | hrunning | hterminated | hno
    · exact ((hs0.off i p hi).2 c).2 ((hw.idle c).trans hidle)
    · refine hs0.notMem_of_state ho ?_ i hi
      rw [(hw.proc p).running hrunning]
      simp
    · exact hkill.1 hterminated
    · rw [hno] at hkill
      cases hkill.2
  refine returns_some ⟨⟨q, hs0.modifyCurrent (.inl rfl) ((hw.current c).trans hcur) rfl ?_ hout⟩,
    .inr ⟨hkill.2, hkill.1, s₀, hw, rfl⟩⟩
  simp [Process.killed]

theorem reparent_proc (s : System) (p r : Ptr) :
    ∃ pid, (reparent s p).proc r = { s.proc r with parentPID := pid } := by
  by_cases hchild : r ∈ s.all ∧ r ≠ p ∧ ¬ (s.proc r).thread ∧ (s.proc r).parentPID = (s.proc p).pid
  · exact ⟨0, if_pos hchild⟩
  · exact ⟨_, if_neg hchild⟩

theorem Settled.reparent (h : Settled o e s) (p : Ptr) : Settled o e (reparent s p) := by
  obtain ⟨q, h⟩ := h
  refine ⟨q, h.setProc (fun r => ?_) fun r => ?_⟩
  all_goals split <;> rfl

/-- Waking does not matter for who becomes an orphan. -/
theorem Woken.reparent {sig : Prop} (h : Woken sig s s') (p : Ptr) :
    Woken sig (reparent s p) (reparent s' p) := by
  refine { h with proc := fun r => ?_ }
  · have hpid : ∀ r, (s'.proc r).pid = (s.proc r).pid := fun r =>
      show (s'.proc r).fixed.pid = (s.proc r).fixed.pid from congrArg Process.pid (h.proc r).fixed
    have hchild : (r ∈ s'.all ∧ r ≠ p ∧ ¬ (s'.proc r).thread ∧
          (s'.proc r).parentPID = (s'.proc p).pid) ↔
        (r ∈ s.all ∧ r ≠ p ∧ ¬ (s.proc r).thread ∧ (s.proc r).parentPID = (s.proc p).pid) := by
      rw [h.all, (h.proc r).thread, (h.proc r).parentPID, hpid p]
    unfold Sched.reparent
    dsimp only
    split
    · rename_i hyes
      rw [if_pos (hchild.mpr hyes)]
      have hfixed := congrArg (fun process : Process => { process with parentPID := 0 })
        (h.proc r).fixed
      exact ⟨(h.proc r).state, hfixed, (h.proc r).pending⟩
    · rename_i hno
      rw [if_neg fun hyes => hno (hchild.mp hyes)]
      exact h.proc r

section

variable (h : Settled o e s)

include h

theorem Settled.onProcessTerminated (c : Cpu) (p : Ptr) :
    Returns (onProcessTerminated s c p) fun s' => Settled o e s' ∧ Ended p s s' := by
  unfold Sched.onProcessTerminated
  split_ifs with hskip
  · exact returns_some ⟨h, .inl ⟨hskip, rfl⟩⟩
  have hmarked : Settled o e
      (s.modify p fun process => { process with terminationHandled := true }) := by
    obtain ⟨q, h⟩ := h
    exact ⟨q, h.modify_same p rfl rfl⟩
  refine (hmarked.killSiblingThreads c p).bind fun s1 ⟨hs1, hw, _⟩ => ?_
  have hs1 := hs1.reparent p
  have hw := hw.reparent p
  generalize Sched.reparent s1 p = s2 at hs1 hw
  dsimp only
  refine returns_unless ⟨hs1, .inr ⟨hskip, hw⟩⟩ fun _ => ?_
  split
  · rename_i parent hparent
    have hmem := getProcessByPID_mem hparent
    refine returns_unless ⟨hs1, .inr ⟨hskip, hw⟩⟩ fun _ => ?_
    refine (hs1.sendSignal c (fun _ => hmem) sigChld).bind fun s3 ⟨hs3, hw', _⟩ => ?_
    have hw' := hw.trans hw'
    split
    · have hmem' : s3.idle c = some parent ∨ parent ∈ s3.all := by
        rw [idle, hw'.cpus, hw'.all, ← hw.cpus, ← hw.all]
        exact hmem
      refine (hs3.wakeProcess c hmem').mono fun s4 hwoken => ?_
      exact ⟨hwoken.1, .inr ⟨hskip, hw'.trans hwoken.2.weaken⟩⟩
    · exact returns_some ⟨hs3, .inr ⟨hskip, hw'⟩⟩
  · exact returns_some ⟨hs1, .inr ⟨hskip, hw⟩⟩

/-! ## Taking a process off the list -/

theorem Settled.delete (hp : p ∉ s.all) (hnew : p ∉ s.deleted) (hlt : p < s.created) (env : Env) :
    Returns (delete s env p) fun s' => Settled o e s' ∧
      Woken False { s with deleted := p :: s.deleted } s' := by
  refine Settled.closeFiles ?_ env p
  obtain ⟨q, h⟩ := h
  refine ⟨q, { h with listed := ?_, distinct := ?_ }⟩
  · intro r hr
    rcases mem_cons.mp hr with rfl | hr
    · exact hlt
    · exact h.listed r hr
  · exact nodup_cons.mpr ⟨by simp [hp, hnew], h.distinct⟩

/-- The process leaves the list and its queue. -/
theorem Settled.dequeue (p : Ptr) (hfree : o → ¬ isBusyOnAnyCpu s p) :
    Returns (removeFromReadyQueue { s with all := s.all.erase p } p) fun s' =>
      Settled o e s' ∧ Requeued { s with all := s.all.erase p } s' := by
  obtain ⟨q, h⟩ := h
  have hnodup : s.all.Nodup := h.distinct.of_append_right
  have hcomm := Sound.removeFromReadyQueue_comm s p
    (g := fun s' => { s' with all := s.all.erase p })
    (fun _ _ => rfl) rfl rfl rfl rfl
  rw [hcomm]
  refine (h.removeFromReadyQueue p).map fun s' ⟨hsame, q', hq', hmem⟩ => ?_
  have hall : s'.all = s.all := by rw [hsame]
  have hstay : ∀ r ∈ s'.all, r ≠ p → r ∈ s.all.erase p := fun r hr hne =>
    hnodup.mem_erase_iff.mpr ⟨hne, hall ▸ hr⟩
  have hback : ∀ r ∈ s.all.erase p, r ∈ s'.all := fun r hr =>
    hall.symm ▸ mem_of_mem_erase hr
  refine ⟨⟨q', ?_⟩, by rw [hsame]; rfl⟩
  refine { hq' with
    listed := ?_, distinct := ?_, queued := ?_, idle := ?_, awake := ?_, held := ?_ }
  · intro r hr
    refine hq'.listed r ?_
    rcases mem_append.mp hr with hr | hr
    · exact mem_append_left _ hr
    · exact mem_append_right _ (hback r hr)
  · have hdistinct := hq'.distinct
    rw [hall] at hdistinct
    exact hdistinct.sublist ((List.Sublist.refl _).append erase_sublist)
  · intro r hr _
    refine hq'.queued r (hback r hr) fun heq => ?_
    cases heq
    exact (hnodup.mem_erase_iff.mp hr).1 rfl
  · exact fun d r hd => ⟨fun hr => (hq'.idle d r hd).1 (hback r hr), (hq'.idle d r hd).2⟩
  · intro ho i r hr
    exact ⟨(hq'.awake ho i r hr).1, hstay r (hq'.awake ho i r hr).2 ((hmem i r).mp hr).1⟩
  · intro ho d r
    have hbusy : ∀ r, s.current d = some r ∨ s.deferred d = some r → r ≠ p := by
      rintro r hr rfl
      exact hfree ho (isBusyOnAnyCpu_iff.mpr ⟨d, hr⟩)
    have hheld := hq'.held ho d r
    have hcur : s'.current d = s.current d := by rw [hsame]; rfl
    have hdef : s'.deferred d = s.deferred d := by rw [hsame]; rfl
    refine ⟨fun hr => ?_, fun hr => ?_⟩
    · exact (hheld.1 hr).imp_right fun hin => hstay r hin (hbusy r (.inl (hcur ▸ hr)))
    · exact hstay r (hheld.2 hr) (hbusy r (.inr (hdef ▸ hr)))

theorem Settled.reap (env : Env) (c : Cpu) (hp : p ∈ s.all) :
    Returns (reap env c s p) fun s' => Settled o e s' ∧ Reaped s s' ∧
      (∀ r ∈ s.all, r ≠ p → r ∈ s'.all) ∧ (Reapable s p → p ∉ s'.all) := by
  have hlt := h.lt hp
  have hdistinct : (s.deleted ++ s.all).Nodup := by
    obtain ⟨q, h⟩ := h
    exact h.distinct
  have hnodup : s.all.Nodup := hdistinct.of_append_right
  unfold Sched.reap
  dsimp only
  split
  · rename_i hreap
    refine (h.dequeue p fun _ => hreap.1).bind fun s1 ⟨hs1, hsame⟩ => ?_
    have hall : s1.all = s.all.erase p := by rw [hsame]
    have hdel : s1.deleted = s.deleted := by rw [hsame]
    have hout : p ∉ s1.all := hall ▸ hnodup.not_mem_erase
    have hnew : p ∉ s1.deleted := hdel ▸ fun hmem => disjoint_of_nodup_append hdistinct hmem hp
    refine (hs1.delete hout hnew (by rw [hsame]; exact hlt) env).bind fun s2 ⟨hs2, hw⟩ => ?_
    have hall2 : s2.all = s.all.erase p := hw.all.trans hall
    have hothers : ∀ r ∈ s.all, r ≠ p → r ∈ s2.all := fun r hr hne => by
      rw [hall2]
      exact hnodup.mem_erase_iff.mpr ⟨hne, hr⟩
    have hself : p ∉ s2.all := hw.all ▸ hout
    have hproc : s1.proc = s.proc := by rw [hsame]
    have hreaped : Reaped s s2 := by
      refine ⟨?_, ?_, ?_, fun r => hproc ▸ hw.proc r, fun r hr => mem_of_mem_erase (hall2 ▸ hr),
        fun r hr hnot => ?_, fun r => ?_⟩
      · rw [hw.cpus, hsame]
      · rw [hw.created, hsame]
      · rw [hw.nextPID, hsame]
      · have hrp : r = p := by_contra fun hne => hnot (hothers r hr hne)
        subst hrp
        exact hreap
      · rw [hw.deleted]
        change r ∈ p :: s1.deleted ↔ r ∈ s.deleted ∨ r ∈ s.all ∧ r ∉ s2.all
        rw [hdel, mem_cons]
        constructor
        · rintro (rfl | hr)
          · exact .inr ⟨hp, hself⟩
          · exact .inl hr
        · rintro (hr | ⟨hr, hnot⟩)
          · exact .inr hr
          · exact .inl (by_contra fun hne => hnot (hothers r hr hne))
    split
    · split
      · refine (hs2.wakeParentOf c _).mono fun s3 ⟨hs3, hw'⟩ => ?_
        rw [hw'.all]
        exact ⟨hs3, hreaped.trans (.of_woken hw'), hothers, fun _ => hself⟩
      · exact returns_some ⟨hs2, hreaped, hothers, fun _ => hself⟩
    · exact returns_some ⟨hs2, hreaped, hothers, fun _ => hself⟩
  · rename_i hreap
    exact returns_some ⟨h, .of_woken (.refl s), fun r hr _ => hr, fun hyes => absurd hyes hreap⟩

/-- The turns over a part of the list.  A turn takes away its own process only, so those
still to come are in the list. -/
theorem Settled.foldReap (env : Env) (c : Cpu) {l : List Ptr} (hl : l.Nodup)
    (hall : ∀ r ∈ l, r ∈ s.all) :
    Returns (l.foldlM (Sched.reap env c) s) fun s' => Settled o e s' ∧ Reaped s s' ∧
      ∀ r ∈ l, Reapable s r → r ∉ s'.all := by
  induction l generalizing s with
  | nil => exact returns_pure ⟨h, .of_woken (.refl s), by simp⟩
  | cons p l ih =>
    obtain ⟨hp, hl⟩ := nodup_cons.mp hl
    refine (h.reap env c (hall p mem_cons_self)).bind fun s1 ⟨hs1, hreaped, hothers, hself⟩ => ?_
    have hrest : ∀ r ∈ l, r ∈ s1.all := fun r hr =>
      hothers r (hall r (mem_cons_of_mem p hr)) (ne_of_mem_of_not_mem hr hp)
    refine (ih hs1 hl hrest).mono fun s2 ⟨hs2, hreaped', hgone⟩ => ?_
    refine ⟨hs2, hreaped.trans hreaped', fun r hr hreap => ?_⟩
    rcases mem_cons.mp hr with rfl | hr
    · exact fun hmem => hself hreap (hreaped'.all r hmem)
    · exact hgone r hr ((hreaped.reapable_iff r).mpr hreap)

theorem Settled.reapTerminated (env : Env) (c : Cpu) :
    Returns (reapTerminated s env c) fun s' => Settled o e s' ∧ Reaped s s' ∧
      ∀ r ∈ s.all, Reapable s r → r ∉ s'.all := by
  have hnodup : s.all.Nodup := by
    obtain ⟨q, h⟩ := h
    exact h.distinct.of_append_right
  exact h.foldReap env c hnodup fun r hr => hr

end

/-! ## Changing what a CPU runs -/

/-- A process that a CPU may run next: no other CPU runs it, and it is the idle process of
this CPU or of none. -/
structure Available (o : Prop) (c : Cpu) (s : System) (next : Ptr) : Prop where
  free : ∀ d, d ≠ c → s.current d ≠ some next
  made : next < s.created
  idle : ∀ d, s.idle d = some next → d = c
  live : o → s.idle c = some next ∧ next ∉ s.all ∨ next ∈ s.all ∧ (s.proc next).state = .ready

theorem Sound.available (h : Sound o (some c) x s q) {next : Ptr}
    (hnext : s.idle c = some next ∨ ∃ i, next ∈ q i) : Available o c s next := by
  rcases hnext with hidle | ⟨i, hi⟩
  · refine ⟨fun d hd hcur => ?_, h.placed c next (.inr (.inl hidle)), fun d hd => ?_,
      fun _ => .inl ⟨hidle, (h.idle c next hidle).1⟩⟩
    · exact hd (((h.idle c next hidle).2 d).2.1 hcur)
    · exact ((h.idle c next hidle).2 d).1 hd
  · refine ⟨fun d hd hcur => ?_, h.made i next hi, fun d hd => ?_,
      fun ho => .inr (h.awake ho i next hi).symm⟩
    · exact (h.off i next hi).1 d (fun heq => hd (Option.some.inj heq).symm) hcur
    · exact absurd hd ((h.off i next hi).2 d).2

/-- A CPU that is being left gets its next process, or a CPU runs nothing any more. -/
theorem Sound.runNext (h : Sound o e x s q) {r : Option Ptr}
    (hnext : ∀ next, r = some next → e = some c ∧ Available o c s next) :
    Sound o e x (s.setCurrent c r) q := by
  have hcur : ∀ d p, (s.setCurrent c r).current d = some p →
      d = c ∧ e = some c ∧ Available o c s p ∨ d ≠ c ∧ s.current d = some p := by
    intro d p hp
    rw [setCurrent_current] at hp
    by_cases hd : d = c
    · rw [if_pos hd] at hp
      exact .inl ⟨hd, hnext p hp⟩
    · rw [if_neg hd] at hp
      exact .inr ⟨hd, hp⟩
  refine { h with
    placed := ?_, off := ?_, queued := ?_, running := ?_, single := ?_, idle := ?_, held := ?_ }
  · rintro d p (hp | hp)
    · rcases hcur d p hp with ⟨_, _, hnext⟩ | ⟨_, hp⟩
      · exact hnext.made
      · exact h.placed d p (.inl hp)
    · rw [setCurrent_idle, setCurrent_deferred] at hp
      exact h.placed d p (.inr hp)
  · intro i p hp
    refine ⟨fun d hd hp' => ?_, fun d => ?_⟩
    · rcases hcur d p hp' with ⟨rfl, he, _⟩ | ⟨_, hp'⟩
      · exact hd he
      · exact (h.off i p hp).1 d hd hp'
    · rw [setCurrent_deferred, setCurrent_idle]
      exact (h.off i p hp).2 d
  · intro p hp hx hready hdef
    exact h.queued p hp hx hready fun d => setCurrent_deferred .. ▸ hdef d
  · intro d p hd hp
    rw [setCurrent_idle]
    rcases hcur d p hp with ⟨rfl, he, _⟩ | ⟨_, hp⟩
    · exact absurd he hd
    · exact h.running d p hd hp
  · intro d d' p hd hd'
    rcases hcur d p hd with ⟨rfl, _, hnext⟩ | ⟨hne, hp⟩
    · rcases hcur d' p hd' with ⟨rfl, _⟩ | ⟨hne, hp'⟩
      · rfl
      · exact absurd hp' (hnext.free d' hne)
    · rcases hcur d' p hd' with ⟨rfl, _, hnext⟩ | ⟨_, hp'⟩
      · exact absurd hp (hnext.free d hne)
      · exact h.single d d' p hp hp'
  · intro d p hd
    rw [setCurrent_idle] at hd
    obtain ⟨hnot, hrest⟩ := h.idle d p hd
    refine ⟨hnot, fun d' => ?_⟩
    rw [setCurrent_idle, setCurrent_deferred]
    refine ⟨(hrest d').1, fun hd' => ?_, (hrest d').2.2⟩
    rcases hcur d' p hd' with ⟨rfl, _, hnext⟩ | ⟨_, hd'⟩
    · exact (hnext.idle d hd).symm
    · exact (hrest d').2.1 hd'
  · intro ho d p
    rw [setCurrent_idle, setCurrent_deferred]
    refine ⟨fun hp => ?_, (h.held ho d p).2⟩
    rcases hcur d p hp with ⟨rfl, _, hnext⟩ | ⟨_, hp⟩
    · exact (hnext.live ho).imp And.left And.left
    · exact (h.held ho d p).1 hp

/-- Nothing is being left any more: what the CPU runs is not queued, and it runs. -/
theorem Sound.arrive (h : Sound o (some c) none s q)
    (hcur : ∀ p, s.current c = some p → (∀ i, p ∉ q i) ∧
      (s.idle c = some p ∨ (s.proc p).state = .running)) : Sound o none none s q :=
  { h with
    off := fun i p hp => by
      refine ⟨fun d _ hd => ?_, (h.off i p hp).2⟩
      by_cases hdc : d = c
      · subst hdc
        exact (hcur p hd).1 i hp
      · exact (h.off i p hp).1 d (fun heq => hdc (Option.some.inj heq).symm) hd
    running := fun d p _ hd hidle => by
      by_cases hdc : d = c
      · subst hdc
        exact (hcur p hd).2.resolve_left hidle
      · exact h.running d p (fun heq => hdc (Option.some.inj heq).symm) hd hidle }

theorem Sound.makeCurrent (h : Sound o (some c) none s q) {next : Ptr}
    (hnext : s.idle c = some next ∨ ∃ i, next ∈ q i) :
    Returns (makeCurrent s c next) fun s' => Settled o none s' ∧
      Requeued ((s.setCurrent c (some next)).setState next .running) s' := by
  have havail := h.available hnext
  -- the CPU runs `next` alone, once that is in no queue
  have hruns : ∀ {s : System} {x : Option Ptr} {q : ProcessPriority → List Ptr},
      Sound o (some c) x s q → x = none ∨ x = some next → Available o c s next →
      (∀ i, next ∉ q i) →
      Settled o none ((s.setCurrent c (some next)).setState next .running) := by
    intro s x q h hx havail hout
    have hcur : (s.setCurrent c (some next)).current c = some next := by simp
    have hset := (h.runNext fun _ hr => ⟨rfl, Option.some.inj hr ▸ havail⟩).modifyCurrent hx hcur
      (f := fun process => { process with state := .running }) rfl (by simp) fun _ => hout
    refine ⟨q, hset.arrive fun p hp => ?_⟩
    cases hp.symm.trans hcur
    exact ⟨hout, .inr (setState_state ..)⟩
  unfold Sched.makeCurrent
  dsimp only
  split
  · rename_i hidle
    rw [setState_idle, setCurrent_idle] at hidle
    exact returns_some ⟨hruns h (.inl rfl) havail fun i hi => ((h.off i next hi).2 c).2 hidle,
      .refl _⟩
  · have hcomm := Sound.removeFromReadyQueue_comm s next
      (g := fun s' => (s'.setCurrent c (some next)).setState next .running)
      (fun _ _ => rfl) rfl rfl rfl (by simp [setState, setCurrent, setCpu])
    rw [hcomm]
    refine (h.removeFromReadyQueue next).map fun s' hremoved => ?_
    obtain ⟨hsame, q', hq', hmem⟩ := hremoved
    have hout : ∀ i, next ∉ q' i := fun i hi => ((hmem i next).mp hi).1 rfl
    refine ⟨hruns hq' (.inr rfl) ?_ hout, by rw [hsame]; rfl⟩
    rw [hsame]
    exact { havail with }

end InstantOS.Sched

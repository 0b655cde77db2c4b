import InstantOS.Sched.Moves

/-!
# The calls and interrupts

One lemma for each call: it returns, it leaves the queues sound, and it is a sequence of
moves.
-/

namespace InstantOS.Sched

open IntrusiveList Function Sched.System List

variable {o : Prop} {new : System → Process → Prop} {e : Option Cpu} {x : Option Ptr}
  {s s' : System} {q : ProcessPriority → List Ptr} {env : Env} {c : Cpu} {p : Ptr}

/-! ## New processes and removed ones -/

theorem Sound.withProcess (h : Sound o e none s q) (process : Process) :
    Sound o e (some s.created) (s.withProcess process) q := by
  have hother : ∀ a, a < s.created → (s.withProcess process).proc a = s.proc a := fun a ha =>
    update_of_ne (Nat.ne_of_lt ha) _ _
  have hold : ∀ a ∈ s.all, a < s.created := fun a ha =>
    h.listed a (mem_append_right _ ha)
  refine
    { lists := ⟨fun i => ?_, h.lists.apart⟩, off := h.off, single := h.single, prio := ?_
      made := ?_, listed := ?_, placed := ?_, distinct := ?_, queued := ?_, running := ?_
      idle := ?_, awake := ?_, held := ?_ }
  · exact (h.lists.linked i).update_of_notMem (fun hi => Nat.lt_irrefl _ (h.made i _ hi)) none
  · intro i a ha
    rw [hother a (h.made i a ha)]
    exact h.prio i a ha
  · exact fun i a ha => Nat.lt_succ_of_lt (h.made i a ha)
  · intro a ha
    rcases mem_append.mp ha with ha | ha
    · exact Nat.lt_succ_of_lt (h.listed a (mem_append_left _ ha))
    · rcases mem_cons.mp ha with rfl | ha
      · exact Nat.lt_succ_self _
      · exact Nat.lt_succ_of_lt (hold a ha)
  · exact fun d a ha => Nat.lt_succ_of_lt (h.placed d a ha)
  · have hnew : s.created ∉ s.deleted ++ s.all := fun hmem => Nat.lt_irrefl _ (h.listed _ hmem)
    exact nodup_middle.mpr (nodup_cons.mpr ⟨hnew, h.distinct⟩)
  · intro a ha hne hready hdef
    rcases mem_cons.mp ha with rfl | ha
    · exact absurd rfl hne
    · rw [hother a (hold a ha)] at hready ⊢
      exact h.queued a ha (by simp) hready hdef
  · intro d a hd hcur hidle
    rw [hother a (h.placed d a (.inl hcur))]
    exact h.running d a hd hcur hidle
  · intro d a hd
    refine ⟨fun hmem => ?_, (h.idle d a hd).2⟩
    rcases mem_cons.mp hmem with rfl | hmem
    · exact Nat.lt_irrefl _ (h.placed d _ (.inr (.inl hd)))
    · exact (h.idle d a hd).1 hmem
  · intro ho i a ha
    rw [hother a (h.made i a ha)]
    exact ⟨(h.awake ho i a ha).1, mem_cons_of_mem _ (h.awake ho i a ha).2⟩
  · intro ho d a
    exact ⟨fun hcur => ((h.held ho d a).1 hcur).imp_right (mem_cons_of_mem _),
      fun hdef => mem_cons_of_mem _ ((h.held ho d a).2 hdef)⟩

theorem Settled.addProcess (h : Settled o e s) (process : Process) (hnew : new s process) :
    Returns (addProcess s process) fun s' => Settled o e s' ∧ Moves o new s s' := by
  obtain ⟨q, h⟩ := h
  have hloose := h.withProcess process
  have hidle : ∀ d, (s.withProcess process).idle d ≠ some s.created := fun d hd =>
    Nat.lt_irrefl _ (h.placed d _ (.inr (.inl hd)))
  have hself : (s.withProcess process).proc s.created = process := update_self ..
  have hfinish : ∀ s', Requeued (s.withProcess process) s' → Moves o new s s' := fun s' hs' =>
    .single (.made process hnew
      (fun hmem => Nat.lt_irrefl _ (h.listed _ (mem_append_right _ hmem))) hs')
  change Returns (if process.state = .ready then
    Sched.addToReadyQueue (s.withProcess process) s.created else some (s.withProcess process)) _
  split
  · refine (hloose.addToReadyQueue (.inr rfl) hidle (Nat.lt_succ_self _)
      fun _ => mem_cons_self).mono fun s' ⟨hsame, hs'⟩ => ?_
    exact ⟨hs', hfinish s' hsame⟩
  rename_i hstate
  refine returns_some ⟨⟨q, hloose.settle fun _ hready => ?_⟩, hfinish _ (.refl _)⟩
  rw [hself] at hready
  exact absurd hready hstate

variable (new) in
theorem Settled.removeProcess (h : Settled o e s) (c : Cpu) (pid : Nat)
    (hdead : o → ∀ p, (s.all.find? fun r => (s.proc r).pid == pid) = some p →
      ¬ isBusyOnAnyCpu s p ∧ (s.proc p).state = .terminated) :
    Returns (removeProcess s env c pid) fun s' => Settled o e s' ∧ Moves o new s s' ∧
      (busyElsewhere s c pid = false → ∀ p, (s.all.find? fun r => (s.proc r).pid == pid) = some p →
          s'.all = s.all.erase p ∧ s'.deleted = p :: s.deleted) := by
  unfold Sched.removeProcess
  dsimp only
  split
  · rename_i hbusy
    exact returns_some ⟨h, .refl, fun hfree => by rw [hfree] at hbusy; cases hbusy⟩
  split
  · rename_i hfind
    exact returns_some ⟨h, .refl, fun _ p hp => by rw [hfind] at hp; cases hp⟩
  rename_i p hfind
  have hp : p ∈ s.all := mem_of_find?_eq_some hfind
  have hlt := h.lt hp
  have hdistinct : (s.deleted ++ s.all).Nodup := by
    obtain ⟨q, h⟩ := h
    exact h.distinct
  have hout : p ∉ s.all.erase p := fun hmem =>
    (hdistinct.of_append_right.mem_erase_iff.mp hmem).1 rfl
  have hnew : p ∉ s.deleted := fun hmem => disjoint_of_nodup_append hdistinct hmem hp
  refine (h.dequeue p fun ho => (hdead ho p hfind).1).bind fun s1 ⟨hs1, hsame⟩ => ?_
  have hcur1 : s1.current c = s.current c := hsame.current c
  have hall1 : p ∉ s1.all := by rw [hsame]; exact hout
  have hdel1 : p ∉ s1.deleted := by rw [hsame]; exact hnew
  have hlt1 : p < s1.created := by rw [hsame]; exact hlt
  have hgone : ∀ s' : System, s'.all = s1.all → s'.deleted = p :: s1.deleted →
      busyElsewhere s c pid = false →
      ∀ r, (s.all.find? fun r => (s.proc r).pid == pid) = some r →
        s'.all = s.all.erase r ∧ s'.deleted = r :: s.deleted := by
    intro s' hall hdel _ r hr
    cases hfind.symm.trans hr
    rw [hall, hdel, hsame]
    exact ⟨rfl, rfl⟩
  rw [hcur1]
  -- the process may be the one this CPU runs
  split_ifs with hcur
  · have hs2 : Settled o e ((s1.setCurrent c none).modify p
        fun process => { process with validUserState := false }) := by
      obtain ⟨q, hs1⟩ := hs1
      exact ⟨q, (hs1.runNext (c := c) (r := none) nofun).modify_same p rfl rfl⟩
    refine (hs2.delete hall1 hdel1 hlt1 env).mono fun s' ⟨hs', hw⟩ => ⟨hs',
      .single (.removed (c := c) hp (fun ho => hdead ho p hfind) (.trans (.of_requeued ?_) hw)),
      hgone s' hw.all hw.deleted⟩
    rw [if_pos hcur, hsame]
    rfl
  · refine (hs1.delete hall1 hdel1 hlt1 env).mono fun s' ⟨hs', hw⟩ => ⟨hs',
      .single (.removed (c := c) hp (fun ho => hdead ho p hfind) (.trans (.of_requeued ?_) hw)),
      hgone s' hw.all hw.deleted⟩
    rw [if_neg hcur, hsame]
    rfl

/-! ## Callers -/

theorem caller_eq_some : s.caller c = some p ↔ s.current c = some p ∧ s.idle c ≠ some p := by
  unfold caller
  split_ifs with heq
  · simp only [false_iff, not_and, not_not]
    exact fun hcur => heq ▸ hcur
  · exact ⟨fun hcur => ⟨hcur, fun hidle => heq (hcur.trans hidle.symm)⟩, And.left⟩

theorem returns_asCaller {Q : System → Prop} {act : Ptr → Option System} (hs : Q s)
    (hact : ∀ p, s.current c = some p → s.idle c ≠ some p → Returns (act p) Q) :
    Returns (asCaller s c act) Q := by
  unfold asCaller
  cases hcaller : s.caller c with
  | none => exact returns_some hs
  | some p =>
    obtain ⟨hcur, hidle⟩ := caller_eq_some.mp hcaller
    exact hact p hcur hidle

theorem Settled.runs (h : Settled o none s) (hcur : s.current c = some p)
    (hidle : s.idle c ≠ some p) : (s.proc p).state = .running := by
  obtain ⟨q, h⟩ := h
  exact h.running c p (by simp) hcur hidle

theorem Settled.mayLeave (h : Settled o none s) (c : Cpu) : MayLeave o c s := by
  intro _ p hcur
  by_cases hidle : s.idle c = some p
  · exact .inl hidle
  · exact .inr (.inl (h.runs hcur hidle))

/-- A call ends with sound queues and is a sequence of moves. -/
abbrev Proceeds (o : Prop) (new : System → Process → Prop) (s s' : System) : Prop :=
  Settled o none s' ∧ Moves o new s s'

theorem Moves.returns {s1 : System} {r : Option System} (h : Moves o new s s1)
    (hr : Returns r (Proceeds o new s1)) : Returns r (Proceeds o new s) :=
  hr.mono fun _ hs' => ⟨hs'.1, h.trans hs'.2⟩

theorem returns_woken {sig : Prop} {r : Option System}
    (hr : Returns r (Wakes o none sig s)) : Returns r (Proceeds o new s) :=
  hr.mono fun _ hs' => ⟨hs'.1, .of_woken hs'.2⟩

theorem Settled.schedules (h : Settled o (some c) s) (hidle : s.idle c ≠ none)
    (hleave : MayLeave o c s) : Returns (Sched.schedule s env c) (Proceeds o new s) :=
  (h.schedule hidle hleave).mono fun _ hs' => ⟨hs'.1, hs'.2.moves⟩

theorem Settled.schedulesFrame (h : Settled o (some c) s) (hidle : s.idle c ≠ none)
    (hleave : MayLeave o c s) (frame : InterruptFrame) :
    Returns ((Sched.scheduleFrame s env c frame).map Prod.snd) (Proceeds o new s) :=
  (h.scheduleFrame hidle hleave frame).map fun _ hs' => ⟨hs'.1, hs'.2.moves⟩

theorem Settled.takePID (h : Settled o e s) : Settled o e (takePID s) := by
  obtain ⟨q, h⟩ := h
  exact ⟨q, h.setProc (fun _ => rfl) fun _ => rfl⟩

theorem Settled.create (h : Settled o e s) (process : Process)
    (hnew : new (Sched.takePID s) process) :
    Returns (Sched.create s process) fun s' => Settled o e s' ∧ Moves o new s s' :=
  (h.takePID.addProcess process hnew).mono fun _ hs' =>
    ⟨hs'.1, .trans (.single .pid) hs'.2⟩

/-- The process a CPU runs changes something the queues do not depend on. -/
theorem Settled.modifyOwn (h : Settled o e s) (p : Ptr) {f : Process → Process}
    (hprio : (f (s.proc p)).priority = (s.proc p).priority)
    (hstate : (f (s.proc p)).state = (s.proc p).state) : Settled o e (s.modify p f) := by
  obtain ⟨q, h⟩ := h
  exact ⟨q, h.modify_same p hprio hstate⟩

variable (new) in
/-- The process that runs takes another state, on its way into the scheduler. -/
theorem Settled.setOwnState (h : Settled o (some c) s) (hcur : s.current c = some p)
    (hrun : (s.proc p).state = .running) (state : ProcessState) (hstate : state ≠ .ready) :
    Settled o (some c) (s.setState p state) ∧ Moves o new s (s.setState p state) := by
  obtain ⟨q, h⟩ := h
  refine ⟨⟨q, h.modifyCurrent (.inl rfl) hcur rfl hstate fun ho => ?_⟩,
    Moves.setState hcur fun _ hdead => ?_⟩
  · exact h.notMem_of_state ho (by rw [hrun]; simp)
  · rw [hrun] at hdead
    cases hdead

/-! ## Waiting -/

theorem Settled.setDeadline (h : Settled o e s) (p : Ptr) (deadline : Option (Nat × Bool)) :
    Settled o e (setDeadline s p deadline) ∧ Woken False s (setDeadline s p deadline) := by
  cases deadline with
  | none => exact ⟨h, .refl s⟩
  | some d =>
    obtain ⟨ms, wakesOnEvents⟩ := d
    unfold Sched.setDeadline
    exact ⟨h.modifyOwn p rfl rfl, .modify s p ⟨.inl rfl, rfl, fun _ => rfl⟩⟩

/-- In an orderly run no process waits with a `SIGKILL` pending. -/
def MayWait (o : Prop) (c : Cpu) (s : System) : Prop :=
  o → ∀ p, s.current c = some p → (s.proc p).killPending = false

theorem Settled.waits (h : Settled o (some c) s) (hcur : s.current c = some p)
    (hrun : (s.proc p).state = .running) (hidle : s.idle c ≠ none) (hwait : MayWait o c s) :
    Returns (Sched.schedule (s.setState p .blocked) env c) (Proceeds o new s) := by
  obtain ⟨hblocked, hmoves⟩ := h.setOwnState new hcur hrun .blocked (by simp)
  refine hmoves.returns (hblocked.schedules hidle fun ho r hr => .inr (.inr (.inr ?_)))
  cases hcur.symm.trans hr
  rw [setState, modify_self]
  exact hwait ho p hcur

theorem Settled.block (h : Settled o none s) (hidle : s.idle c ≠ none) (hwait : MayWait o c s)
    (deadline : Option (Nat × Bool)) : Returns (block s env c deadline) (Proceeds o new s) := by
  refine returns_asCaller ⟨h, .refl⟩ fun p hcur hidle' => ?_
  have hrun := h.runs hcur hidle'
  obtain ⟨hs1, hw⟩ := h.setDeadline p deadline
  have hwait1 : MayWait o c (Sched.setDeadline s p deadline) := by
    intro ho r hr
    rw [hw.current] at hr
    rw [Process.killPending, (hw.proc r).pending id]
    exact hwait ho r hr
  refine (Moves.of_woken hw).returns
    ((hs1.leave (some c)).waits ((hw.current c).trans hcur) ?_ ?_ hwait1)
  · exact (hw.proc p).running hrun
  · rw [hw.idle]
    exact hidle

theorem System.setState_restore {state : ProcessState} (hrun : (s.proc p).state = .running) :
    (s.setState p state).setState p .running = s := by
  have hproc : { (s.proc p) with state := .running } = s.proc p := by rw [← hrun]
  have hupdate : update (update s.proc p { (s.proc p) with state := state }) p
      { (s.proc p) with state := .running } = s.proc := by
    rw [update_idem, hproc, update_eq_self]
  simp only [setState, modify, update_self]
  rw [hupdate]

theorem removable_iff : removable s p ↔
    (s.proc p).state = .terminated ∧ ¬ isBusyOnAnyCpu s p ∧ ¬ hasOtherThreads s p := by
  simp [removable, and_assoc]

theorem findChild_some {parentPID : Nat} {pid : Int} {child : Ptr} {matching : Bool}
    (h : findChild s parentPID pid true = (some child, matching)) :
    child ∈ s.all ∧ removable s child := by
  have hfind := congrArg Prod.fst h
  refine ⟨mem_of_mem_filter (mem_of_find?_eq_some hfind), ?_⟩
  simpa using find?_some hfind

section

variable (h : Settled o none s)

include h

theorem Settled.sysWait (hidle : s.idle c ≠ none) (hwait : MayWait o c s)
    (hpids : o → ∀ r ∈ s.all, ∀ r' ∈ s.all, (s.proc r).pid = (s.proc r').pid → r = r')
    (pid : Int) (noHang copied : Bool) :
    Returns (sysWait s env c pid noHang copied) (Proceeds o new s) := by
  refine returns_asCaller ⟨h, .refl⟩ fun p hcur hidle' => ?_
  have hrun := h.runs hcur hidle'
  dsimp only
  split
  · rename_i child matching hchild
    obtain ⟨hmem, hremovable⟩ := findChild_some hchild
    obtain ⟨hstate, hbusy, _⟩ := removable_iff.mp hremovable
    rw [setState_restore hrun]
    split
    · refine (h.removeProcess new c _ fun ho r hr => ?_).mono fun s' hs' => ⟨hs'.1, hs'.2.1⟩
      have hpid : (s.proc r).pid = (s.proc child).pid := by
        simpa using find?_some hr
      have hrc := hpids ho r (mem_of_find?_eq_some hr) child hmem hpid
      subst hrc
      have hne : r ≠ p := by
        rintro rfl
        rw [setState_state] at hstate
        cases hstate
      rw [setState, modify_of_ne _ _ _ hne] at hstate
      exact ⟨hbusy, hstate⟩
    · exact returns_some ⟨h, .refl⟩
  · split
    · rw [setState_restore hrun]
      exact returns_some ⟨h, .refl⟩
    · exact (h.leave (some c)).waits hcur hrun hidle hwait

theorem Settled.completeRequest (c : Cpu) (ownerPID : Nat) :
    Returns (completeRequest s c ownerPID) (Proceeds o new s) := by
  unfold Sched.completeRequest
  split
  · rename_i owner howner
    split
    · rename_i hblocked
      have hmem := getProcessByPID_mem howner
      unfold Sched.wakeProcess
      rw [setState_idle]
      split_ifs with hidle
      · have hw : Woken True s (s.setState owner .ready) :=
          .modify s owner ⟨.inr ⟨hblocked, rfl⟩, rfl, fun _ => rfl⟩
        obtain ⟨q, h⟩ := h
        refine returns_some ⟨⟨q, (h.modify owner (.inl rfl) rfl (fun d _ hcur => ?_)
          fun _ => .inl rfl).settle fun hall => ?_⟩, .of_woken hw⟩
        · rw [((h.idle c owner hidle).2 d).2.1 hcur]
          exact hidle
        · exact absurd hall (h.idle c owner hidle).1
      · rw [setState_state]
        exact returns_woken (h.rouse (f := fun process => { process with state := .ready })
          (hmem.resolve_left hidle) hblocked rfl rfl rfl fun s q hs =>
            hs.addToReadyQueueFront (.inr rfl))
    · exact returns_some ⟨h, .refl⟩
  · exact returns_some ⟨h, .refl⟩

/-! ## Signals and affinity -/

theorem Settled.sysKill (c : Cpu) (pid sig : Nat) :
    Returns (sysKill s c pid sig) (Proceeds o new s) := by
  refine returns_asCaller ⟨h, .refl⟩ fun p hcur hidle' => ?_
  have hsent : ∀ r, ((s.proc r).state = .blocked → s.idle c = some r ∨ r ∈ s.all) →
      Returns (Sched.sendSignal s c r sig) (Proceeds o new s) :=
    fun r hr => (h.sendSignal c hr sig).mono fun s' ⟨hs', hw, _⟩ => ⟨hs', .of_woken hw⟩
  refine returns_unless ⟨h, .refl⟩ fun _ => ?_
  split
  · refine hsent p fun hblocked => ?_
    rw [h.runs hcur hidle'] at hblocked
    cases hblocked
  refine returns_unless ⟨h, .refl⟩ fun _ => ?_
  split
  · rename_i target htarget
    exact hsent target fun _ => getProcessByPID_mem htarget
  · exact returns_some ⟨h, .refl⟩

theorem Settled.sysSchedSetaffinity (hidle : s.idle c ≠ none) (pid : Nat)
    (mask : BitVec 64) : Returns (sysSchedSetaffinity s env c pid mask) (Proceeds o new s) := by
  refine returns_asCaller ⟨h, .refl⟩ fun p hcur hidle' => ?_
  dsimp only
  generalize (if pid = 0 then some p else if 2 ^ 32 ≤ pid then none else getProcessByPID s c pid) =
    target
  cases target with
  | none => exact returns_some ⟨h, .refl⟩
  | some target =>
    dsimp only
    refine returns_unless ⟨h, .refl⟩ fun _ => ?_
    have hs1 := h.modifyOwn target (f := fun process => { process with cpuAffinity := mask })
      rfl rfl
    have hmove : Moves o new s
        (s.modify target fun process => { process with cpuAffinity := mask }) :=
      .single (.affinity target mask)
    split
    · exact hmove.returns ((hs1.leave (some c)).schedules hidle (hs1.mayLeave c))
    · exact returns_some ⟨hs1, hmove⟩

end

/-! ## Ending -/

/-- The process that a CPU runs is dead by now, and the CPU is to leave it. -/
def Dies (o : Prop) (new : System → Process → Prop) (c : Cpu) (p : Ptr) (s s' : System) : Prop :=
  Settled o (some c) s' ∧ Moves o new s s' ∧ s'.cpus = s.cpus ∧ (s'.proc p).state = .terminated

theorem Dies.mayLeave (h : Dies o new c p s s') (hcur : s.current c = some p) :
    MayLeave o c s' := by
  intro _ r hr
  rw [current_eq h.2.2.1, hcur] at hr
  cases hr
  exact .inr (.inr (.inl h.2.2.2))

theorem Dies.schedules (h : Dies o new c p s s') (hcur : s.current c = some p)
    (hidle : s.idle c ≠ none) : Returns (Sched.schedule s' env c) (Proceeds o new s) := by
  refine h.2.1.returns (h.1.schedules ?_ (h.mayLeave hcur))
  rw [idle_eq h.2.2.1]
  exact hidle

variable (new) in
theorem Settled.die (h : Settled o (some c) s) (hcur : s.current c = some p)
    (hrun : (s.proc p).state = .running) (code : Int) :
    Returns (die s env p code) (Dies o new c p s) := by
  obtain ⟨hs1, hw⟩ := h.adjust p (f := fun process => { process with exitCode := code }) rfl rfl
  refine (hs1.closeFiles env p).bind fun s2 ⟨hs2, hw'⟩ => ?_
  have hw := hw.trans hw'.weaken
  have hrun2 := (hw.proc p).running hrun
  obtain ⟨hs3, hmoves⟩ := hs2.setOwnState new ((hw.current c).trans hcur) hrun2
    .terminated (by simp)
  exact returns_some ⟨hs3, (Moves.of_woken hw).trans hmoves, hw.cpus, setState_state ..⟩

variable (new) in
theorem Settled.dieWithGroup (h : Settled o (some c) s) (hcur : s.current c = some p)
    (hrun : (s.proc p).state = .running) (code : Int) :
    Returns (dieWithGroup s env c p code) (Dies o new c p s) := by
  have hgroup : Returns (if (s.proc p).thread then Sched.exitThreadGroup s c p code else some s)
      (Wakes o (some c) True s) := by
    split
    · exact h.exitThreadGroup c p code
    · exact returns_some ⟨h, .refl s⟩
  refine hgroup.bind fun s1 ⟨hs1, hw⟩ => ?_
  have hrun1 := (hw.proc p).running hrun
  refine (hs1.die new ((hw.current c).trans hcur) hrun1 code).mono
    fun s2 ⟨hs2, hmoves, hcpus, hdead⟩ => ?_
  exact ⟨hs2, (Moves.of_woken hw).trans hmoves, hcpus.trans hw.cpus, hdead⟩

theorem Ended.terminated (h : Ended p s s') (r : Ptr) :
    (s'.proc r).state = .terminated ↔ (s.proc r).state = .terminated := by
  rcases h with ⟨_, rfl⟩ | ⟨_, hw⟩
  · exact .rfl
  · rw [(hw.proc r).terminated, (reparent_proc _ p r).choose_spec]
    exact Eq.congr_left (modify_keeps (g := Process.state) _ _ _ rfl r)

section

variable (h : Settled o none s) (hidle : s.idle c ≠ none)

include h hidle

theorem Settled.sysExit (code : Int) : Returns (sysExit s env c code) (Proceeds o new s) := by
  refine returns_asCaller ⟨h, .refl⟩ fun p hcur hidle' => ?_
  refine ((h.leave (some c)).dieWithGroup new hcur (h.runs hcur hidle') code).bind
    fun s1 hdies => ?_
  have hcur1 : s1.current c = some p := (current_eq hdies.2.2.1 c).trans hcur
  refine (hdies.1.onProcessTerminated c p).bind fun s2 ⟨hs2, hended⟩ => ?_
  have hdies2 : Dies o new c p s s2 :=
    ⟨hs2, hdies.2.1.tail (.ended hcur1 hdies.2.2.2 hended), hended.cpus.trans hdies.2.2.1,
      (hended.terminated p).mpr hdies.2.2.2⟩
  exact hdies2.schedules hcur hidle

theorem Settled.sysThreadExit (code : Int) :
    Returns (sysThreadExit s env c code) (Proceeds o new s) := by
  refine returns_asCaller ⟨h, .refl⟩ fun p hcur hidle' => ?_
  split
  · have hrun := h.runs hcur hidle'
    obtain ⟨hs1, hw⟩ := (h.leave (some c)).adjust p
      (f := fun process => { process with exitCode := code }) rfl rfl
    obtain ⟨hs2, hmoves⟩ := hs1.setOwnState new (p := p) hcur
      (by rw [modify_self]; exact hrun) .terminated (by simp)
    have hdies : Dies o new c p s ((s.modify p fun process =>
        { process with exitCode := code }).setState p .terminated) :=
      ⟨hs2, (Moves.of_woken hw).trans hmoves, rfl, setState_state ..⟩
    exact hdies.schedules hcur hidle
  · exact h.sysExit hidle code

theorem Settled.takeSignal (sig : Nat) (fatal : Bool) :
    Returns (takeSignal s env c sig fatal) (Proceeds o new s) := by
  refine returns_asCaller ⟨h, .refl⟩ fun p hcur hidle' => ?_
  refine returns_unless ⟨h, .refl⟩ fun _ => ?_
  obtain ⟨hs1, hw⟩ := h.adjust p (f := fun process =>
    { process with pending := process.pending &&& ~~~ BitVec.twoPow 64 sig }) rfl rfl
  dsimp only
  split
  · have hrun := hs1.runs hcur hidle'
    refine ((hs1.leave (some c)).dieWithGroup new hcur hrun _).bind fun s2 hdies => ?_
    exact (Moves.of_woken hw).returns (hdies.schedules hcur hidle)
  · exact returns_some ⟨hs1, .of_woken hw⟩

theorem Settled.killedAtExit : Returns (killedAtExit s env c) (Proceeds o new s) := by
  refine returns_asCaller ⟨h, .refl⟩ fun p hcur hidle' => ?_
  refine ((h.leave (some c)).terminateIfKilled hcur fun ho => h.mayLeave c ho p hcur).bind
    fun s1 ⟨hs1, hkilled⟩ => ?_
  split_ifs with hdead
  · have hdies : Dies o new c p s s1 := ⟨hs1, .single (.killed hcur hkilled), hkilled.cpus, hdead⟩
    exact hdies.schedules hcur hidle
  rcases hkilled with rfl | ⟨_, _, s0, _, rfl⟩
  · exact returns_some ⟨h, .refl⟩
  · rw [modify_self] at hdead
    exact absurd rfl hdead

theorem Settled.userFault (frame : InterruptFrame) (code : Int) :
    Returns (userFault s env c frame code) (Proceeds o new s) := by
  refine returns_asCaller ⟨h, .refl⟩ fun p hcur hidle' => ?_
  refine ((h.leave (some c)).dieWithGroup new hcur (h.runs hcur hidle') code).bind
    fun s1 hdies => ?_
  have hcur1 : s1.current c = some p := (current_eq hdies.2.2.1 c).trans hcur
  have hdies2 : Dies o new c p s
      (s1.modify p fun process => { process with validUserState := false }) :=
    ⟨hdies.1.modifyOwn p rfl rfl,
      hdies.2.1.tail (.own hcur1 _ ⟨rfl, rfl, rfl, rfl⟩ fun _ hdead => hdead), hdies.2.2.1,
      by rw [modify_self]; exact hdies.2.2.2⟩
  refine hdies2.2.1.returns (hdies2.1.schedulesFrame ?_ (hdies2.mayLeave hcur) frame)
  rw [idle_eq hdies2.2.2.1]
  exact hidle

theorem Settled.sysExec (hwait : MayWait o c s) (resumed : Bool) :
    Returns (sysExec s env c resumed) (Proceeds o new s) := by
  refine returns_asCaller ⟨h, .refl⟩ fun p hcur hidle' => ?_
  dsimp only
  -- the pid of the image that was loaded is used up
  obtain ⟨s1, heq, hs1, hmoves, hcpus, hproc⟩ : ∃ s1,
    (if resumed then s else Sched.takePID s) = s1 ∧
      Settled o none s1 ∧ Moves o new s s1 ∧ s1.cpus = s.cpus ∧ s1.proc = s.proc := by
    split
    · exact ⟨s, rfl, h, .refl, rfl, rfl⟩
    · exact ⟨Sched.takePID s, rfl, h.takePID, .single .pid, rfl, rfl⟩
  rw [heq]
  have hcur1 : s1.current c = some p := (current_eq hcpus c).trans hcur
  refine returns_unless ⟨hs1, hmoves⟩ fun _ => ?_
  refine (hs1.killSiblingThreads c p).bind fun s2 ⟨hs2, hw, hpending⟩ => ?_
  have hmoves := hmoves.trans (show Moves o new s1 s2 from .of_woken hw)
  have hcur2 : s2.current c = some p := (hw.current c).trans hcur1
  have hidle2 : s2.idle c = s.idle c := (hw.idle c).trans (idle_eq hcpus c)
  split
  · refine Moves.returns hmoves (hs2.block (hidle2 ▸ hidle) (fun ho r hr => ?_) _)
    cases hcur2.symm.trans hr
    rw [Process.killPending, hpending, hproc]
    exact hwait ho p hcur
  · have hrun := hs2.runs hcur2 (hidle2 ▸ hidle')
    refine returns_some ⟨hs2.modifyOwn p rfl hrun.symm,
      hmoves.tail (.own hcur2 _ ⟨rfl, rfl, rfl, rfl⟩
      fun _ hdead => ?_)⟩
    rw [hrun] at hdead
    cases hdead

end

/-! ## Entering and leaving the kernel -/

section

variable (h : Settled o none s) (c : Cpu)

include h

theorem Settled.syscallEntry (registers : FrameRegisters) :
    Returns (syscallEntry s c registers) (Proceeds o new s) := by
  refine (h.onKernelEntry c).bind fun s1 ⟨hs1, hunparked⟩ => ?_
  have hmoves : Moves o new s s1 := .single (.unparked hunparked)
  refine returns_asCaller ⟨hs1, hmoves⟩ fun p hcur _ => ?_
  exact returns_some ⟨hs1.modifyOwn p rfl rfl,
    hmoves.tail (.own hcur _ ⟨rfl, rfl, rfl, rfl⟩ fun _ hdead => hdead)⟩

theorem Settled.syscallReturn (registers : FrameRegisters) :
    Returns (syscallReturn s c registers) (Proceeds o new s) := by
  refine returns_asCaller ⟨h, .refl⟩ fun p hcur _ => ?_
  refine returns_unless ⟨h, .refl⟩ fun _ => ?_
  exact returns_some ⟨h.modifyOwn p rfl rfl,
    .single (.own hcur _ ⟨rfl, rfl, rfl, rfl⟩ fun _ hdead => hdead)⟩

theorem Settled.runIdleOnThisCpu : Returns (runIdleOnThisCpu s c) (Proceeds o new s) := by
  unfold Sched.runIdleOnThisCpu
  split
  · rename_i p hnone hidle
    obtain ⟨q, hsound⟩ := h.leave (some c)
    have hmake := hsound.makeCurrent (.inl hidle)
    rw [Sched.makeCurrent, if_pos (by rw [setState_idle, setCurrent_idle]; exact hidle)] at hmake
    exact hmake.mono fun s' ⟨hs', hsame⟩ =>
      ⟨hs', .trans (.single (.idles hnone (hsound.idle c p hidle).1)) (Moves.of_requeued hsame)⟩
  · exact returns_some ⟨h, .refl⟩

end

/-! ## Steps -/

/-- What is asked of the steps of an orderly run: a process that waits has no `SIGKILL`
pending, no two processes have one pid, and `removeProcess` is called by `sys_wait` only. -/
def Op.Orderly (s : System) : Op → Prop
  | .removeProcess .. => False
  | .block c _ | .exec c _ => ∀ p, s.current c = some p → (s.proc p).killPending = false
  | .wait c .. => (∀ p, s.current c = some p → (s.proc p).killPending = false) ∧
      ∀ r ∈ s.all, ∀ r' ∈ s.all, (s.proc r).pid = (s.proc r').pid → r = r'
  | _ => True

/-- `deferUntilNextEntry` is called inside `schedule(frame)` only. -/
def Op.Parks : Op → Prop
  | .deferUntilNextEntry .. => True
  | _ => False

variable (new env) in
/-- A step that does not park returns, leaves the queues sound and is made of moves. -/
theorem Settled.stepMoves (h : Settled o none s) {op : Op} (hpossible : op.Possible s)
    (horderly : o → op.Orderly s)
    (hnew : ∀ process n, op.creates s = some process → new { s with nextPID := n } process)
    (hparks : ¬ op.Parks) :
    Returns (step env s op) (Proceeds o new s) := by
  cases op with
  | launch priority => exact h.create _ (hnew _ _ rfl)
  | addProcess process => exact h.addProcess process (hnew process s.nextPID rfl)
  | removeProcess c pid =>
    exact (h.removeProcess new c pid fun ho => absurd (horderly ho) id).mono
      fun s' hs' => ⟨hs'.1, hs'.2.1⟩
  | reapTerminated c =>
    exact (h.reapTerminated env c).mono fun s' ⟨hs', hreaped, _⟩ => ⟨hs', .single (.reaped hreaped)⟩
  | schedule c =>
    exact (h.leave (some c)).schedules (hpossible.1 c rfl) (h.mayLeave c)
  | interrupt c frame =>
    exact (h.leave (some c)).schedulesFrame (hpossible.1 c rfl) (h.mayLeave c) frame
  | wakeProcess c p => exact returns_woken (h.wakeProcess c (.inr hpossible.2))
  | wakeAllBlockedProcesses => exact returns_woken (h.wakeAllBlockedProcesses env.nowMs)
  | wakeExpiredSleepers c => exact returns_woken (h.wakeExpiredSleepers c env.nowMs)
  | deferUntilNextEntry c p => exact absurd trivial hparks
  | onKernelEntry c =>
    exact (h.onKernelEntry c).mono fun s' ⟨hs', hunparked⟩ => ⟨hs', .single (.unparked hunparked)⟩
  | runIdle c => exact h.runIdleOnThisCpu c
  | syscallEntry c registers => exact h.syscallEntry c registers
  | syscallReturn c registers => exact h.syscallReturn c registers
  | userCode c high =>
    refine returns_asCaller ⟨h, .refl⟩ fun p _ _ => returns_some ⟨?_, .single (.registers c high)⟩
    exact h.setCpu c (fun _ => rfl) (fun _ => rfl) fun _ => rfl
  | spawn c priority =>
    refine returns_asCaller ⟨h, .refl⟩ fun p hcur hidle => h.create _ (hnew _ _ ?_)
    simp [Op.creates, caller_eq_some.mpr ⟨hcur, hidle⟩]
  | fork c =>
    refine returns_asCaller ⟨h, .refl⟩ fun p hcur hidle => ?_
    refine returns_unless ⟨h, .refl⟩ fun hthread => ?_
    exact h.create _ (hnew _ _ (by simp [Op.creates, caller_eq_some.mpr ⟨hcur, hidle⟩, hthread]))
  | threadCreate c =>
    refine returns_asCaller ⟨h, .refl⟩ fun p hcur hidle => h.create _ (hnew _ _ ?_)
    simp [Op.creates, caller_eq_some.mpr ⟨hcur, hidle⟩]
  | block c deadline => exact h.block (hpossible.1 c rfl) horderly deadline
  | wait c pid noHang copied =>
    exact h.sysWait (hpossible.1 c rfl) (fun ho => (horderly ho).1) (fun ho => (horderly ho).2)
      pid noHang copied
  | completeRequest c ownerPID => exact h.completeRequest c ownerPID
  | kill c pid sig => exact h.sysKill c pid sig
  | setAffinity c pid mask => exact h.sysSchedSetaffinity (hpossible.1 c rfl) pid mask
  | exit c code => exact h.sysExit (hpossible.1 c rfl) code
  | threadExit c code => exact h.sysThreadExit (hpossible.1 c rfl) code
  | takeSignal c sig fatal => exact h.takeSignal (hpossible.1 c rfl) sig fatal
  | killedAtExit c => exact h.killedAtExit (hpossible.1 c rfl)
  | userFault c frame code => exact h.userFault (hpossible.1 c rfl) frame code
  | exec c resumed => exact h.sysExec (hpossible.1 c rfl) horderly resumed

variable (new env) in
/-- Every step returns, leaves the queues sound and is made of moves. -/
theorem Settled.step (h : Settled o none s) {op : Op} (hpossible : op.Possible s)
    (horderly : o → op.Orderly s)
    (hnew : ∀ process n, op.creates s = some process → new { s with nextPID := n } process) :
    Returns (step env s op) fun s' => Settled o none s' ∧ (op.Parks ∨ Moves o new s s') := by
  by_cases hparks : op.Parks
  · cases op with
    | deferUntilNextEntry c p =>
      have hp : p ∈ s.all := hpossible.2
      exact (h.deferUntilNextEntry c (h.idle_ne hp) (h.lt hp) fun _ => hp).mono
        fun s' hs' => ⟨hs'.1, .inl trivial⟩
    | _ => exact hparks.elim
  · exact (h.stepMoves new env hpossible horderly hnew hparks).mono
      fun s' hs' => ⟨hs'.1, .inr hs'.2⟩

end InstantOS.Sched

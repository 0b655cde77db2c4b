import InstantOS.Sched.ReadyRun

/-!
# Parents and children

A process that has ended stays in the list until its parent waits for it or, if it has no
parent, until `reapTerminated` comes by.  So every process must have a parent that can still
wait, or none: when a process ends its children become orphans.  `Family` says this, for
runs in which only main threads have children, pids are not reused too early, and no process
is killed while it waits.
-/

namespace InstantOS.Sched

open Sched.System List

variable {s s' : System} {c : Cpu} {p : Ptr} {env : Env}

/-! ## The invariant -/

/-- A process in the list whose end has not been reported, under the pid. -/
def Living (s : System) (pid : Nat) (r : Ptr) : Prop :=
  r ∈ s.all ∧ (s.proc r).thread = false ∧ (s.proc r).pid = pid ∧
    (s.proc r).terminationHandled = false

structure Family (s : System) : Prop where
  parent : ∀ p ∈ s.all, (s.proc p).thread = false →
    (s.proc p).parentPID = 0 ∨ ∃ r, r ≠ p ∧ Living s (s.proc p).parentPID r
  pids : ∀ p ∈ s.all, ∀ r ∈ s.all, (s.proc p).pid = (s.proc r).pid → p = r
  range : ∀ p ∈ s.all, 0 < (s.proc p).pid ∧ (s.proc p).pid < 2 ^ 32
  nextPID : s.nextPID < 2 ^ 32
  handled : ∀ p ∈ s.all, (s.proc p).terminationHandled = true → (s.proc p).state = .terminated
  dead : ∀ p ∈ s.all, (s.proc p).state = .terminated →
    (s.proc p).thread = true ∨ (s.proc p).terminationHandled = true ∨ ∃ d, s.current d = some p

/-- What is known of a new process: its pid is not in use, and its parent lives. -/
def Born (s : System) (process : Process) : Prop :=
  (0 < process.pid ∧ process.pid < 2 ^ 32 ∧ ∀ r ∈ s.all, (s.proc r).pid ≠ process.pid) ∧
    (process.terminationHandled = false ∧ process.state ≠ .terminated) ∧
    (process.thread = true ∨ process.parentPID = 0 ∨ ∃ r, Living s process.parentPID r)

theorem Living.mono {pid : Nat} {r : Ptr} (h : Living s pid r) (hall : r ∈ s'.all)
    (hkin : Kin (s.proc r) (s'.proc r)) : Living s' pid r := by
  obtain ⟨_, hthread, hpid, hhandled⟩ := h
  exact ⟨hall, hkin.thread.trans hthread, hkin.pid.trans hpid, hkin.handled.trans hhandled⟩

namespace Family

section

-- the names and the ends of the processes are the same, and what ran still runs or its end
-- was reported
variable (h : Family s) (hnext : s'.nextPID = s.nextPID)
  (hkin : ∀ p ∈ s.all, Kin (s.proc p) (s'.proc p))
  (hhandled : ∀ p ∈ s.all, (s.proc p).terminationHandled →
    (s.proc p).state = .terminated → (s'.proc p).state = .terminated)
  (hdead : ∀ p ∈ s.all, (s'.proc p).state = .terminated →
    (s.proc p).thread ∨ (s.proc p).terminationHandled ∨ ∃ d, s'.current d = some p)

include h hnext hkin hhandled hdead

/-- Processes leave the list, but none that lives. -/
theorem restrict (hsub : ∀ p ∈ s'.all, p ∈ s.all)
    (hliving : ∀ pid r, Living s pid r → r ∈ s'.all) : Family s' := by
  constructor
  · intro p hp hthread
    have hp := hsub p hp
    rw [(hkin p hp).thread] at hthread
    rw [(hkin p hp).parentPID]
    refine (h.parent p hp hthread).imp_right fun ⟨r, hne, hr⟩ => ⟨r, hne, ?_⟩
    exact hr.mono (hliving _ r hr) (hkin r hr.1)
  · intro p hp r hr hpid
    rw [(hkin p (hsub p hp)).pid, (hkin r (hsub r hr)).pid] at hpid
    exact h.pids p (hsub p hp) r (hsub r hr) hpid
  · intro p hp
    rw [(hkin p (hsub p hp)).pid]
    exact h.range p (hsub p hp)
  · rw [hnext]
    exact h.nextPID
  · intro p hp hhandled'
    have hp := hsub p hp
    rw [(hkin p hp).handled] at hhandled'
    exact hhandled p hp hhandled' (h.handled p hp hhandled')
  · intro p hp hstate
    have hp := hsub p hp
    rw [(hkin p hp).thread, (hkin p hp).handled]
    exact hdead p hp hstate

theorem congr (hall : s'.all = s.all) : Family s' :=
  h.restrict hnext hkin hhandled hdead (fun _ hp => hall ▸ hp) fun _ _ hr => hall ▸ hr.1

end

theorem woken {sig : Prop} (h : Family s) (hw : Woken sig s s') : Family s' := by
  refine h.congr hw.nextPID (fun p _ => (hw.proc p).kin)
    (fun p _ _ hstate => (hw.proc p).terminated.mpr hstate) (fun p hp hstate => ?_) hw.all
  simp only [hw.current]
  exact h.dead p hp ((hw.proc p).terminated.mp hstate)

section

variable (h : Family s)

include h

theorem requeued (hsame : Requeued s s') : Family s' :=
  h.woken (show Woken False s s' from .of_requeued hsame)

/-- Dead processes that nobody is busy with are taken off the list: nobody's parent is among
them. -/
theorem shrink (hnext : s'.nextPID = s.nextPID)
    (hsub : ∀ p ∈ s'.all, p ∈ s.all) (hproc : ∀ p, Roused False (s.proc p) (s'.proc p))
    (hcur : ∀ d, s'.current d = s.current d)
    (hgone : ∀ p ∈ s.all, p ∉ s'.all → ¬ isBusyOnAnyCpu s p ∧ (s.proc p).state = .terminated) :
    Family s' := by
  refine h.restrict hnext (fun p _ => (hproc p).kin)
    (fun p _ _ hstate => (hproc p).terminated.mpr hstate) (fun p hp hstate => ?_) hsub
    fun pid r hr => by_contra fun hout => ?_
  · simp only [hcur]
    exact h.dead p hp ((hproc p).terminated.mp hstate)
  · obtain ⟨hbusy, hstate⟩ := hgone r hr.1 hout
    rcases h.dead r hr.1 hstate with hyes | hyes | ⟨d, hd⟩
    · rw [hr.2.1] at hyes
      cases hyes
    · rw [hr.2.2.2] at hyes
      cases hyes
    · exact hbusy (isBusyOnAnyCpu_iff.mpr ⟨d, .inl hd⟩)

/-- The process that a CPU runs is changed. -/
theorem own (hcur : s.current c = some p) {f : Process → Process}
    (hkin : Kin (s.proc p) (f (s.proc p)))
    (hdead : p ∈ s.all → (s.proc p).state = .terminated → (f (s.proc p)).state = .terminated) :
    Family (s.modify p f) := by
  have hother : ∀ r, r ≠ p → (s.modify p f).proc r = s.proc r := fun r hr =>
    modify_of_ne _ _ _ hr
  refine h.congr rfl (fun r _ => ?_) (fun r hr _ hstate => ?_) (fun r hr hstate => ?_) rfl
  all_goals by_cases hrp : r = p
  · subst hrp
    rw [modify_self]
    exact hkin
  · rw [hother r hrp]
    exact .refl _
  · subst hrp
    rw [modify_self]
    exact hdead hr hstate
  · rw [hother r hrp]
    exact hstate
  · subst hrp
    exact .inr (.inr ⟨c, hcur⟩)
  · rw [hother r hrp] at hstate
    exact h.dead r hr hstate

theorem killed (hcur : s.current c = some p) (hkilled : Killed p s s') : Family s' := by
  rcases hkilled with rfl | ⟨_, _, s0, hw, rfl⟩
  · exact h
  · exact (h.woken hw).own ((hw.current c).trans hcur) ⟨rfl, rfl, rfl, rfl⟩ fun _ _ => rfl

/-- The end of a process is reported and its children become orphans. -/
theorem reported (hstate : (s.proc p).state = .terminated) :
    Family (reparent
      (s.modify p fun process => { process with terminationHandled := true }) p) := by
  let u := s.modify p fun process => { process with terminationHandled := true }
  change Family (reparent u p)
  have hsame : ∀ r, r ≠ p → u.proc r = s.proc r := fun r hr => modify_of_ne _ _ _ hr
  have hself : u.proc p = { s.proc p with terminationHandled := true } := modify_self ..
  -- nothing but the parent and, for `p`, the mark is different
  have hrest : ∀ r, ((reparent u p).proc r).pid = (s.proc r).pid ∧
      ((reparent u p).proc r).thread = (s.proc r).thread ∧
      ((reparent u p).proc r).state = (s.proc r).state := by
    intro r
    obtain ⟨pid, hr⟩ := reparent_proc u p r
    rw [hr]
    exact ⟨modify_keeps (g := Process.pid) _ _ _ rfl r,
      modify_keeps (g := Process.thread) _ _ _ rfl r, modify_keeps (g := Process.state) _ _ _ rfl r⟩
  have hpid := fun r => (hrest r).1
  have hthread := fun r => (hrest r).2.1
  have hends := fun r => (hrest r).2.2
  have hhandled : ∀ r, r ≠ p →
      ((reparent u p).proc r).terminationHandled = (s.proc r).terminationHandled := by
    intro r hrp
    obtain ⟨pid, hr⟩ := reparent_proc u p r
    rw [hr, hsame r hrp]
  have hmark : ((reparent u p).proc p).terminationHandled := by
    obtain ⟨pid, hr⟩ := reparent_proc u p p
    rw [hr, hself]
  constructor
  · intro r hr hmain
    rw [hthread] at hmain
    by_cases hchild : r ∈ u.all ∧ r ≠ p ∧ ¬ (u.proc r).thread ∧
      (u.proc r).parentPID = (u.proc p).pid
    · have horphan : (reparent u p).proc r = { u.proc r with parentPID := 0 } := if_pos hchild
      exact .inl (by rw [horphan])
    have hkeep : (reparent u p).proc r = u.proc r := if_neg hchild
    have hparent : ((reparent u p).proc r).parentPID = (s.proc r).parentPID := by
      rw [hkeep]
      by_cases hrp : r = p
      · rw [hrp, hself]
      · rw [hsame r hrp]
    rw [hparent]
    refine (h.parent r hr hmain).imp_right fun ⟨w, hne, hw⟩ => ⟨w, hne, ?_⟩
    -- a child of `p` would have become an orphan
    have hwp : w ≠ p := by
      rintro rfl
      refine hchild ⟨hr, hne.symm, ?_, ?_⟩
      · rw [hsame r hne.symm, hmain]
        simp
      · rw [hsame r hne.symm, hself]
        exact hw.2.2.1.symm
    exact ⟨hw.1, (hthread w).trans hw.2.1, (hpid w).trans hw.2.2.1,
      (hhandled w hwp).trans hw.2.2.2⟩
  · intro r hr r' hr' heq
    rw [hpid, hpid] at heq
    exact h.pids r hr r' hr' heq
  · intro r hr
    rw [hpid]
    exact h.range r hr
  · exact h.nextPID
  · intro r hr hyes
    rw [hends]
    by_cases hrp : r = p
    · exact hrp ▸ hstate
    · rw [hhandled r hrp] at hyes
      exact h.handled r hr hyes
  · intro r hr hyes
    rw [hends] at hyes
    by_cases hrp : r = p
    · exact .inr (.inl (hrp ▸ hmark))
    · rw [hthread, hhandled r hrp]
      exact h.dead r hr hyes

theorem ended (hstate : (s.proc p).state = .terminated) (hended : Ended p s s') : Family s' := by
  rcases hended with ⟨_, rfl⟩ | ⟨_, hw⟩
  · exact h
  · exact (h.reported hstate).woken hw

/-- A CPU goes over to another process, once the end of the old one was reported. -/
theorem enter {next : Ptr} (havailable : Available True c s next) (hleft : Reported c s) : Family
    ((s.setCurrent c (some next)).setState next .running) := by
  have hother : ∀ r, r ≠ next →
      ((s.setCurrent c (some next)).setState next .running).proc r = s.proc r := fun r hr => by
    rw [setState, modify_of_ne _ _ _ hr]
    rfl
  refine h.congr rfl (fun r _ => ?_) (fun r hr _ hstate => ?_) (fun r hr hstate => ?_) rfl
  · by_cases hrn : r = next
    · subst hrn
      rw [setState, modify_self]
      exact ⟨rfl, rfl, rfl, rfl⟩
    · rw [hother r hrn]
      exact .refl _
  · have hrn : r ≠ next := by
      rintro rfl
      rcases havailable.live trivial with ⟨_, hout⟩ | ⟨_, hready⟩
      · exact hout hr
      · rw [hready] at hstate
        cases hstate
    rw [hother r hrn]
    exact hstate
  · have hrn : r ≠ next := by
      rintro rfl
      rw [setState_state] at hstate
      cases hstate
    rw [hother r hrn] at hstate
    rcases h.dead r hr hstate with hyes | hyes | ⟨d, hd⟩
    · exact .inl hyes
    · exact .inr (.inl hyes)
    by_cases hdc : d = c
    · subst hdc
      exact (hleft r hr hd hstate).imp_right .inl
    · refine .inr (.inr ⟨d, ?_⟩)
      rw [setState_current, setCurrent_current, if_neg hdc]
      exact hd

theorem modify (p : Ptr) {f : Process → Process}
    (hkin : Kin (s.proc p) (f (s.proc p))) (hstate : (f (s.proc p)).state = (s.proc p).state) :
    Family (s.modify p f) := by
  have hproc : ∀ r, Kin (s.proc r) ((s.modify p f).proc r) ∧
      ((s.modify p f).proc r).state = (s.proc r).state := by
    intro r
    by_cases hr : r = p
    · subst hr
      rw [modify_self]
      exact ⟨hkin, hstate⟩
    · rw [modify_of_ne _ _ _ hr]
      exact ⟨.refl _, rfl⟩
  exact h.congr rfl (fun r _ => (hproc r).1) (fun r _ _ hstate => (hproc r).2.trans hstate)
    (fun r hr hstate => h.dead r hr ((hproc r).2 ▸ hstate)) rfl

/-- Nothing but data of the CPUs is different, and they run what they ran. -/
theorem setCpu (c : Cpu) {f : PerCPU → PerCPU}
    (hf : ∀ cpu, (f cpu).currentProcess = cpu.currentProcess) : Family (s.setCpu c f) := by
  refine h.congr rfl (fun r _ => .refl _) (fun r _ _ hstate => hstate) (fun r hr hstate => ?_) rfl
  simp only [setCpu_current s c _ f hf]
  exact h.dead r hr hstate

theorem switchTo (c : Cpu) (old : Option Ptr) (next : Ptr) (userRSP : Word) :
    Family (Sched.switchTo s c old next userRSP) := by
  unfold Sched.switchTo
  refine .setCpu ?_ c fun _ => rfl
  cases old with
  | none => exact h
  | some old => exact h.modify old ⟨rfl, rfl, rfl, rfl⟩ rfl

theorem withProcess {process : Process} (hborn : Born s process) (hfresh : s.created ∉ s.all) :
    Family (s.withProcess process) := by
  obtain ⟨⟨hpos, hlt, hunused⟩, ⟨hunhandled, hlives⟩, hparent⟩ := hborn
  have hself : (s.withProcess process).proc s.created = process := Function.update_self ..
  have hother : ∀ r ∈ s.all, (s.withProcess process).proc r = s.proc r := fun r hr =>
    Function.update_of_ne (ne_of_mem_of_not_mem hr hfresh) _ _
  have hliving : ∀ {pid : Nat} {r : Ptr}, Living s pid r → Living (s.withProcess process) pid r :=
    fun hr => hr.mono (mem_cons_of_mem _ hr.1) (by rw [hother _ hr.1]; exact .refl _)
  refine ⟨fun r hr => ?_, fun r hr r' hr' => ?_, fun r hr => ?_, h.nextPID, fun r hr => ?_,
    fun r hr => ?_⟩
  all_goals rcases mem_cons.mp hr with rfl | hr
  · rw [hself]
    intro hthread
    rcases hparent with hyes | hzero | ⟨w, hw⟩
    · rw [hthread] at hyes
      cases hyes
    · exact .inl hzero
    · exact .inr ⟨w, ne_of_mem_of_not_mem hw.1 hfresh, hliving hw⟩
  · rw [hother r hr]
    exact fun hthread => (h.parent r hr hthread).imp_right fun ⟨w, hne, hw⟩ => ⟨w, hne, hliving hw⟩
  · rcases mem_cons.mp hr' with rfl | hr'
    · exact fun _ => rfl
    · rw [hself, hother r' hr']
      exact fun heq => absurd heq.symm (hunused r' hr')
  · rcases mem_cons.mp hr' with rfl | hr'
    · rw [hself, hother r hr]
      exact fun heq => absurd heq (hunused r hr)
    · rw [hother r hr, hother r' hr']
      exact h.pids r hr r' hr'
  · rw [hself]
    exact ⟨hpos, hlt⟩
  · rw [hother r hr]
    exact h.range r hr
  · rw [hself, hunhandled]
    exact nofun
  · rw [hother r hr]
    exact h.handled r hr
  · rw [hself]
    exact fun hstate => absurd hstate hlives
  · rw [hother r hr]
    exact h.dead r hr

theorem unpark (hunparked : Unparked c s s') : Family s' := by
  rcases hunparked with ⟨_, rfl⟩ | hw
  · exact h
  · refine .woken ?_ hw
    exact h.setCpu c fun _ => rfl

theorem idles (hnone : s.current c = none) (hout : p ∉ s.all) :
    Family ((s.setCurrent c (some p)).setState p .running) := by
  have hother : ∀ r ∈ s.all,
      ((s.setCurrent c (some p)).setState p .running).proc r = s.proc r := fun r hr => by
    rw [setState, modify_of_ne _ _ _ (ne_of_mem_of_not_mem hr hout)]
    rfl
  refine h.congr rfl (fun r hr => by rw [hother r hr]; exact .refl _)
    (fun r hr _ hstate => by rw [hother r hr]; exact hstate) (fun r hr hstate => ?_) rfl
  rw [hother r hr] at hstate
  refine (h.dead r hr hstate).imp_right fun hrest => hrest.imp_right (.imp fun d hd => ?_)
  have hdc : d ≠ c := by
    rintro rfl
    rw [hnone] at hd
    cases hd
  rw [setState_current, setCurrent_current, if_neg hdc]
  exact hd

theorem move (hmove : Move True Born s s') : Family s' := by
  cases hmove with
  | woken hw => exact h.woken hw
  | reaped hreaped =>
    exact h.shrink hreaped.nextPID hreaped.all hreaped.proc (current_eq hreaped.cpus)
      fun p hp hout => ⟨(hreaped.gone p hp hout).1, (hreaped.gone p hp hout).2.1⟩
  | killed hcur hkilled => exact h.killed hcur hkilled
  | ended hcur hstate hended => exact h.ended hstate hended
  | own hcur f hkin hdead => exact h.own hcur hkin hdead
  | affinity p mask => exact h.modify p ⟨rfl, rfl, rfl, rfl⟩ rfl
  | switched userRSP havailable hleft hmade =>
    exact ((h.enter havailable hleft).requeued hmade).switchTo ..
  | resumed havailable hleft hvalid hmade hpark =>
    have hentered := (h.enter havailable hleft).requeued hmade
    rcases hpark with rfl | ⟨p, s2, s3, _, _, hunparked, hqueue, rfl⟩
    · exact hentered
    · exact ((hentered.unpark hunparked).requeued hqueue).setCpu _ fun _ => rfl
  | idles hnone hout => exact h.idles hnone hout
  | unparked hunparked => exact h.unpark hunparked
  | registers c high => exact h.setCpu c fun _ => rfl
  | pid => exact { h with nextPID := Nat.mod_lt _ (by decide) }
  | made process hnew hfresh hmade => exact (h.withProcess hnew hfresh).requeued hmade
  | @removed _ c p hp hdead hw =>
    obtain ⟨hbusy, hstate⟩ := hdead trivial
    have hcur : s.current c ≠ some p := fun hcur => hbusy (isBusyOnAnyCpu_iff.mpr ⟨c, .inl hcur⟩)
    rw [if_neg hcur] at hw
    refine .woken ?_ hw
    refine h.shrink rfl (fun r hr => mem_of_mem_erase hr) (fun r => .refl _) (fun _ => rfl)
      fun r hr hout => ?_
    have hrp : r = p := by_contra fun hne => hout ((mem_erase_of_ne hne).mpr hr)
    subst hrp
    exact ⟨hbusy, hstate⟩

theorem moves (hmoves : Moves True Born s s') : Family s' := by
  induction hmoves with
  | refl => exact h
  | tail _ hmove ih => exact ih.move hmove

end

end Family

/-! ## Runs -/

/-- The steps as the kernel takes them: processes are added by the calls that create them,
removed by `sys_wait`, and parked by `schedule(frame)`. -/
def Op.Real : Op → Prop
  | .addProcess _ | .removeProcess .. | .deferUntilNextEntry .. => False
  | _ => True

/-- A pid is not 0 and is not in use when a process gets it, only main threads spawn, and no
process waits with a `SIGKILL` pending. -/
def Op.Regular (s : System) (op : Op) : Prop :=
  (∀ process, op.creates s = some process →
      process.pid ≠ 0 ∧ ∀ r ∈ s.all, (s.proc r).pid ≠ process.pid) ∧
    match op with
    | .spawn c _ => ∀ p, s.caller c = some p → (s.proc p).thread = false
    | .block c _ | .wait c .. | .exec c _ =>
      ∀ p, s.current c = some p → (s.proc p).killPending = false
    | _ => True

theorem Op.Regular.orderly {op : Op} (h : op.Regular s) (hreal : op.Real) (hfamily : Family s) :
    op.Orderly s := by
  cases op with
  | removeProcess c pid => exact hreal.elim
  | block | exec => exact h.2
  | wait c pid noHang copied => exact ⟨h.2, hfamily.pids⟩
  | _ => trivial

/-- A process that makes a call can be a parent. -/
theorem Family.living_caller (h : Family s) (hs : Settled True none s)
    (hcaller : s.caller c = some p)
    (hthread : (s.proc p).thread = false) : Living s (s.proc p).pid p := by
  obtain ⟨hcur, hidle⟩ := caller_eq_some.mp hcaller
  have hrun := hs.runs hcur hidle
  obtain ⟨q, hs⟩ := hs
  have hp : p ∈ s.all := ((hs.held trivial c p).1 hcur).resolve_left hidle
  refine ⟨hp, hthread, rfl, Bool.eq_false_iff.mpr fun hhandled => ?_⟩
  have hstate := h.handled p hp hhandled
  rw [hrun] at hstate
  cases hstate

theorem Family.born (h : Family s) (hs : Settled True none s) {op : Op} (hregular : op.Regular s)
    (hreal : op.Real) {process : Process} (hprocess : op.creates s = some process) :
    Born s process := by
  obtain ⟨hpid, hunused⟩ := hregular.1 process hprocess
  cases op with
  | launch priority =>
    cases hprocess
    exact ⟨⟨Nat.pos_of_ne_zero hpid, h.nextPID, hunused⟩, ⟨rfl, nofun⟩, .inr (.inl rfl)⟩
  | addProcess process => exact hreal.elim
  | spawn c priority =>
    obtain ⟨p, hcaller, rfl⟩ := Option.map_eq_some_iff.mp hprocess
    exact ⟨⟨Nat.pos_of_ne_zero hpid, h.nextPID, hunused⟩, ⟨rfl, nofun⟩,
      .inr (.inr ⟨p, h.living_caller hs hcaller (hregular.2 p hcaller)⟩)⟩
  | fork c =>
    obtain ⟨p, hcaller, hp⟩ := Option.bind_eq_some_iff.mp hprocess
    split at hp
    · cases hp
    rename_i hthread
    cases hp
    exact ⟨⟨Nat.pos_of_ne_zero hpid, h.nextPID, hunused⟩, ⟨rfl, nofun⟩,
      .inr (.inr ⟨p, h.living_caller hs hcaller (Bool.eq_false_iff.mpr hthread)⟩)⟩
  | threadCreate c =>
    obtain ⟨p, hcaller, rfl⟩ := Option.map_eq_some_iff.mp hprocess
    exact ⟨⟨Nat.pos_of_ne_zero hpid, h.nextPID, hunused⟩, ⟨rfl, nofun⟩, .inl rfl⟩
  | _ => cases hprocess

theorem family_of_reached (h : Reached (fun s op => op.Real ∧ op.Regular s) s) :
    Settled True none s ∧ Family s := by
  induction h with
  | boot online =>
    exact ⟨⟨_, sound_boot online⟩, nofun, nofun, nofun, show 1 < 2 ^ 32 by decide, nofun, nofun⟩
  | @step s s' hs e op hpossible hop hstep ih =>
    obtain ⟨hsettled, hfamily⟩ := ih
    have hparks : ¬ op.Parks := by
      cases op with
      | deferUntilNextEntry c p => exact hop.1.elim
      | _ => exact id
    have hreturns := hsettled.stepMoves Born e hpossible
      (fun _ => hop.2.orderly hop.1 hfamily)
      (fun process n hprocess => hfamily.born hsettled hop.2 hop.1 hprocess) hparks
    obtain ⟨hsettled', hmoves⟩ := hreturns.of_eq hstep
    exact ⟨hsettled', hfamily.moves hmoves⟩

/-! ## How a dead process goes -/

theorem find?_eq_of_unique {l : List Ptr} {f : Ptr → Bool} (hp : p ∈ l) (hunique : ∀ r ∈ l, r = p)
    (hf : f p) : l.find? f = some p := by
  cases l with
  | nil => cases hp
  | cons r l =>
    rw [hunique r mem_cons_self]
    exact find?_cons_of_pos hf

section

variable (s : System) (p r : Ptr) (state : ProcessState)

theorem setState_kin : Kin (s.proc r) ((s.setState p state).proc r) := by
  by_cases hr : r = p
  · subst hr
    rw [setState, modify_self]
    exact ⟨rfl, rfl, rfl, rfl⟩
  · rw [setState, modify_of_ne _ _ _ hr]
    exact .refl _

theorem setState_sharedState : ((s.setState p state).proc r).sharedState = (s.proc r).sharedState :=
  modify_keeps _ _ _ rfl r

theorem setState_hasOtherThreads :
    hasOtherThreads (s.setState r state) p = hasOtherThreads s p := by
  simp only [hasOtherThreads, sharesStateWith, setState_sharedState]
  rfl

end

/-- The parent that asks for its dead child by pid finds it, once no CPU is busy with the
child and its threads are gone. -/
theorem Family.findChild_eq (h : Family s) (hp : p ∈ s.all) (hthread : (s.proc p).thread = false)
    (hremovable : removable s p) {r : Ptr} (hrp : p ≠ r)
    (hparent : (s.proc r).pid = (s.proc p).parentPID) :
    findChild (s.setState r .blocked) ((s.setState r .blocked).proc r).pid (s.proc p).pid true =
      (some p, true) := by
  obtain ⟨hpos, hlt⟩ := h.range p hp
  have hchild : ∀ w, isChildOf (s.setState r .blocked) ((s.setState r .blocked).proc r).pid
      (s.proc p).pid w ↔ (s.proc w).thread = false ∧
        (s.proc w).parentPID = (s.proc r).pid ∧ (s.proc w).pid = (s.proc p).pid := by
    intro w
    have hkin := setState_kin s r w .blocked
    have hany : ((s.proc p).pid : Int) ≠ -1 := by omega
    have hmod : (s.proc p).pid % 4294967296 = (s.proc p).pid := Nat.mod_eq_of_lt hlt
    simp [isChildOf, hkin.thread, hkin.parentPID, hkin.pid, (setState_kin s r r .blocked).pid,
      hmod, hany, hpos, hpos.ne', and_assoc]
  have hmem : p ∈ (s.setState r .blocked).all.filter (isChildOf (s.setState r .blocked)
      ((s.setState r .blocked).proc r).pid (s.proc p).pid) :=
    mem_filter.mpr ⟨hp, (hchild p).mpr ⟨hthread, hparent.symm, rfl⟩⟩
  have hself : removable (s.setState r .blocked) p := by
    obtain ⟨hstate, hbusy, hothers⟩ := removable_iff.mp hremovable
    refine removable_iff.mpr ⟨?_, hbusy, ?_⟩
    · rw [setState, modify_of_ne _ _ _ hrp]
      exact hstate
    · rw [setState_hasOtherThreads]
      exact hothers
  refine Prod.ext (find?_eq_of_unique hmem (fun w hw => ?_) (by simp [hself])) ?_
  · obtain ⟨hw, hyes⟩ := mem_filter.mp hw
    exact h.pids w hw p hp ((hchild w).mp hyes).2.2
  · simp only [findChild, Bool.not_eq_true', isEmpty_eq_false_iff]
    exact ne_nil_of_mem hmem

theorem getProcessByPID_pid {pid : Nat} (h : getProcessByPID s c pid = some p) :
    (s.proc p).pid = pid := by
  have hfind : ∀ r, (s.all.find? fun w => (s.proc w).pid == pid) = some r → (s.proc r).pid = pid :=
    fun r hr => by simpa using find?_some hr
  unfold getProcessByPID at h
  split at h
  · split at h
    · rename_i hpid
      cases h
      exact hpid
    · exact hfind p h
  · exact hfind p h

variable (env) in
/-- It is then removed by the one `sys_wait`. -/
theorem Family.wait_removes (h : Family s) (hs : Settled True none s) (hp : p ∈ s.all)
    (hthread : (s.proc p).thread = false) (hremovable : removable s p) {r : Ptr}
    (hcaller : s.caller c = some r) (hparent : (s.proc r).pid = (s.proc p).parentPID)
    (noHang : Bool) : Returns (sysWait s env c (s.proc p).pid noHang true) fun s' =>
      s'.all = s.all.erase p ∧ s'.deleted = p :: s.deleted := by
  obtain ⟨hcur, hidle⟩ := caller_eq_some.mp hcaller
  have hrun := hs.runs hcur hidle
  obtain ⟨hstate, hbusy, _⟩ := removable_iff.mp hremovable
  have hrp : p ≠ r := by
    rintro rfl
    rw [hrun] at hstate
    cases hstate
  have hfind : ∀ w, (s.all.find? fun w => (s.proc w).pid == (s.proc p).pid) = some w → w = p := by
    intro w hw
    refine h.pids w (mem_of_find?_eq_some hw) p hp ?_
    simpa using find?_some hw
  have hfound : (s.all.find? fun w => (s.proc w).pid == (s.proc p).pid) = some p := by
    obtain ⟨w, hw⟩ := Option.isSome_iff_exists.mp (find?_isSome.mpr ⟨p, hp, by simp⟩ :
        (s.all.find? fun w => (s.proc w).pid == (s.proc p).pid).isSome)
    rw [hw, hfind w hw]
  have hfree : busyElsewhere s c (s.proc p).pid = false := by
    unfold busyElsewhere
    split
    · rename_i target htarget
      refine Bool.and_eq_false_imp.mpr fun hother => Bool.eq_false_iff.mpr fun hyes => ?_
      rcases getProcessByPID_mem htarget with htarget' | hmem
      · obtain ⟨q, hs⟩ := hs
        obtain ⟨d, hd | hd⟩ := isBusyOnAnyCpu_iff.mp hyes
        · cases ((hs.idle c target htarget').2 d).2.1 hd
          exact of_decide_eq_true hother hd
        · exact ((hs.idle c target htarget').2 d).2.2 hd
      · rw [h.pids target hmem p hp (getProcessByPID_pid htarget)] at hyes
        exact hbusy hyes
    · rfl
  unfold sysWait asCaller
  rw [hcaller]
  dsimp only
  rw [h.findChild_eq hp hthread hremovable hrp hparent]
  rw [setState_restore hrun]
  refine (hs.removeProcess (fun _ _ => True) c _ fun _ w hw => ?_).mono
    fun s' hs' => hs'.2.2 hfree p hfound
  rw [hfind w hw]
  exact ⟨hbusy, hstate⟩

/-! ## Every dead process can be reaped -/

/-- `onProcessTerminated` has run for every dead process. -/
def AllReported (s : System) : Prop :=
  ∀ p ∈ s.all, (s.proc p).state = .terminated → (s.proc p).thread = false →
    (s.proc p).terminationHandled = true

/-- Every process has no parent, or one in the list that is not dead. -/
def Parented (s : System) : Prop :=
  ∀ p ∈ s.all, (s.proc p).thread = false → (s.proc p).parentPID = 0 ∨
    ∃ r ∈ s.all, (s.proc r).pid = (s.proc p).parentPID ∧ (s.proc r).state ≠ .terminated

theorem Family.allReported (h : Family s) (hs : Settled True none s) : AllReported s := by
  intro p hp hstate hthread
  rcases h.dead p hp hstate with hyes | hyes | ⟨d, hd⟩
  · rw [hthread] at hyes
    cases hyes
  · exact hyes
  · rw [hs.runs hd (hs.idle_ne hp d)] at hstate
    cases hstate

theorem Family.parented (h : Family s) (hs : Settled True none s) : Parented s := by
  intro p hp hthread
  refine (h.parent p hp hthread).imp_right fun ⟨r, _, hr, hmain, hpid, hunreported⟩ =>
    ⟨r, hr, hpid, fun hstate => ?_⟩
  rw [h.allReported hs r hr hstate hmain] at hunreported
  cases hunreported

/-- In a regular run every process is parented, a process is deleted at most once, and a dead
one that no CPU is busy with goes: without a parent at the next `reapTerminated`, else, once
its threads are gone, by one `sys_wait` of its parent. -/
theorem dead_processes_go (h : Reached (fun s op => op.Real ∧ op.Regular s) s) :
    AllReported s ∧ Parented s ∧ (s.deleted ++ s.all).Nodup ∧
    ∀ p ∈ s.all, (s.proc p).thread = false → (s.proc p).state = .terminated → ¬ isBusyOnAnyCpu s p →
      ((s.proc p).parentPID = 0 → ∀ env c, ∃ s', reapTerminated s env c = some s' ∧
        p ∉ s'.all ∧ p ∈ s'.deleted) ∧ (hasOtherThreads s p = false → ∀ r c, s.caller c = some r →
        (s.proc r).pid = (s.proc p).parentPID → ∀ env noHang,
        ∃ s', sysWait s env c (s.proc p).pid noHang true = some s' ∧
          p ∉ s'.all ∧ p ∈ s'.deleted) := by
  obtain ⟨hs, hfamily⟩ := family_of_reached h
  have hdistinct : (s.deleted ++ s.all).Nodup := by
    obtain ⟨q, hs⟩ := hs
    exact hs.distinct
  refine ⟨hfamily.allReported hs, hfamily.parented hs, hdistinct,
    fun p hp hthread hstate hbusy => ⟨fun hzero env c => ?_,
      fun hothers r c hcaller hpid env noHang => ?_⟩⟩
  · obtain ⟨s', hreap, _, hreaped, hgone⟩ := hs.reapTerminated env c
    have hout := hgone p hp ⟨hbusy, hstate, .inr hzero⟩
    exact ⟨s', hreap, hout, (hreaped.deleted p).mpr (.inr ⟨hp, hout⟩)⟩
  · have hremovable := removable_iff.mpr ⟨hstate, hbusy, by simp [hothers]⟩
    obtain ⟨s', hwait, hall, hdeleted⟩ :=
      hfamily.wait_removes env hs hp hthread hremovable hcaller hpid noHang
    refine ⟨s', hwait, ?_, ?_⟩
    · rw [hall]
      exact fun hmem => (hdistinct.of_append_right.mem_erase_iff.mp hmem).1 rfl
    · rw [hdeleted]
      exact mem_cons_self

/-- The first process has exited. -/
def sampleDead : System :=
  (sampleLaunched.after sampleEnv (.schedule 0)).after sampleEnv (.exit 0 0)

theorem dead_processes_go_exited : Parented sampleDead ∧ 16 ∈ sampleDead.all ∧
      ∃ s', reapTerminated sampleDead sampleEnv 0 = some s' ∧ 16 ∉ s'.all ∧ 16 ∈ s'.deleted := by
  have hnone : ∀ {op : Op} {s : System}, op.creates s = none → ∀ process,
      op.creates s = some process → process.pid ≠ 0 ∧ ∀ r ∈ s.all, (s.proc r).pid ≠ process.pid :=
    fun hnone process hprocess => by rw [hnone] at hprocess; cases hprocess
  have hall := dead_processes_go
    (.after (.after (.after (.boot fun c => c == 0) sampleEnv (.launch 1) ⟨nofun, trivial⟩
          ⟨trivial, fun process hprocess => by cases hprocess; exact ⟨nofun, nofun⟩, trivial⟩)
        sampleEnv (.schedule 0) ⟨fun c hc => by cases hc; decide +kernel, trivial⟩
        ⟨trivial, hnone rfl, trivial⟩)
      sampleEnv (.exit 0 0) ⟨fun c hc => by cases hc; decide +kernel, trivial⟩
      ⟨trivial, hnone rfl, trivial⟩)
  have hmem : 16 ∈ sampleDead.all := by decide +kernel
  exact ⟨hall.2.1, hmem, (hall.2.2.2 16 hmem (by decide +kernel) (by decide +kernel)
    (by decide +kernel)).1 (by decide +kernel) sampleEnv 0⟩

/-- A thread spawns a process and exits; the thread is reaped, and its child is left with the
pid of nobody. -/
def sampleOrphan : System :=
  (((((sampleLaunched.after sampleEnv (.schedule 0)).after sampleEnv (.threadCreate 0)).after
    sampleEnv (.schedule 0)).after sampleEnv (.spawn 0 1)).after sampleEnv (.threadExit 0 0)).after
      sampleEnv (.schedule 0)

theorem orphan_of_thread : ¬ ∀ s, Reached (fun _ op => op.Real) s → AllReported s → Parented s := by
  intro h
  have hidle : ∀ {s : System} {op : Op}, s.idle 0 ≠ none → op.cpu = some 0 →
      ∀ c, op.cpu = some c → s.idle c ≠ none := fun hidle hcpu c hc => by
    cases hcpu.symm.trans hc
    exact hidle
  have hreached : Reached (fun _ op => op.Real) sampleOrphan := by
    refine .after (.after (.after (.after (.after (.after (.after (.boot fun c => c == 0) sampleEnv
      (.launch 1) ⟨by simp [Op.cpu], trivial⟩ trivial) _ _ ⟨hidle ?_ rfl, trivial⟩ trivial) _ _
      ⟨hidle ?_ rfl, trivial⟩ trivial) _ _ ⟨hidle ?_ rfl, trivial⟩ trivial) _ _
      ⟨hidle ?_ rfl, trivial⟩ trivial) _ _ ⟨hidle ?_ rfl, trivial⟩ trivial) _ _
      ⟨hidle ?_ rfl, trivial⟩ trivial
    all_goals decide +kernel
  have hreported : AllReported sampleOrphan := by
    unfold AllReported
    decide +kernel
  have hparented : ¬ Parented sampleOrphan := by
    unfold Parented
    decide +kernel
  exact hparented (h sampleOrphan hreached hreported)

end InstantOS.Sched

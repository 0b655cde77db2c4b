import InstantOS.Sched.CallMoves

/-!
# The ready queues over whole runs

In every state a run can reach the four queues are lists without repetitions, they hold the
ready processes, and a CPU is never given a process that another one runs or has parked.
-/

namespace InstantOS.Sched

open IntrusiveList

variable {o : Prop} {ok : System → Op → Prop} {s s' : System} {c : Cpu} {p : Ptr} {env : Env}

/-! ## Runs -/

/-- The next state of a run, for steps that return. -/
def System.after (s : System) (e : Env) (op : Op) : System := (step e s op).getD s

theorem Reached.after (h : Reached ok s) (e : Env) (op : Op) (hpossible : op.Possible s)
    (hop : ok s op) : Reached ok (s.after e op) := by
  unfold System.after
  cases hstep : Sched.step e s op with
  | none => exact h
  | some s' => exact .step h e op hpossible hop hstep

theorem boot_idle {online : Cpu → Bool} {d : Cpu} (h : (System.boot online).idle d = some p) :
    p = d := by
  change (if online d then some (d : Ptr) else none) = some p at h
  split at h
  · exact (Option.some.inj h).symm
  · cases h

theorem sound_boot (online : Cpu → Bool) : Sound o none none (.boot online) fun _ => [] where
  lists := ⟨fun _ => rfl, fun i j p hp => by cases hp⟩
  prio i p hp := by cases hp
  made i p hp := by cases hp
  listed p hp := by cases hp
  placed := by
    rintro d p (hp | hp | hp)
    · cases hp
    · rw [boot_idle hp]
      exact d.isLt
    · cases hp
  distinct := List.nodup_nil
  off i p hp := by cases hp
  queued p hp := by cases hp
  running d p _ hp := by cases hp
  single d d' p hp := by cases hp
  idle := by
    intro d p hp
    refine ⟨nofun, fun d' => ⟨fun hp' => ?_, nofun, nofun⟩⟩
    exact Fin.ext ((boot_idle hp').symm.trans (boot_idle hp))
  awake _ i p hp := by cases hp
  held _ d p := ⟨nofun, nofun⟩

theorem settled_of_reached (h : Reached ok s) : Settled False none s := by
  induction h with
  | boot online => exact ⟨_, sound_boot online⟩
  | step hs e op hpossible hop hstep ih =>
    have hreturns := ih.step (fun _ _ => True) e hpossible (fun ho => ho.elim)
      fun _ _ _ => trivial
    exact (hreturns.of_eq hstep).1

/-! ## What the queues are for -/

/-- `getNextProcess` does not give this CPU a process that another one runs or has parked. -/
def Exclusive (s : System) (c : Cpu) : Prop :=
  ∀ p s', getNextProcess s c = some (some p, s') →
    ∀ d, d ≠ c → s.current d ≠ some p ∧ s.deferred d ≠ some p

theorem Settled.exclusive (h : Settled o (some c) s) : Exclusive s c := by
  intro p s' hnext d hd
  obtain ⟨q, h⟩ := h
  obtain ⟨_, _, _, _, hfrom⟩ := (h.takeFirst c [2, 1, 0]).of_eq hnext
  have hsource : s.idle c = some p ∨ ∃ i, p ∈ q i := by
    rcases hfrom with hfrom | ⟨r, i, hr, hi⟩
    · exact .inl hfrom.symm
    · cases hr
      exact .inr ⟨i, hi⟩
  refine ⟨(h.available hsource).free d hd, ?_⟩
  rcases hsource with hidle | ⟨i, hi⟩
  · exact ((h.idle c p hidle).2 d).2.2
  · exact ((h.off i p hi).2 d).1

/-- The lists behind the four heads: finite, without a process in two places or one that a
CPU runs or has parked, and with every other ready process in the list of its priority and
nowhere else. -/
structure Intact (s : System) (q : ProcessPriority → List Ptr) : Prop where
  linked : ∀ i, Linked s.next (s.readyQueues i) (q i)
  nodup : ∀ i, (q i).Nodup
  apart : ∀ i j p, p ∈ q i → p ∈ q j → i = j
  off : ∀ i p, p ∈ q i → ∀ d, s.current d ≠ some p ∧ s.deferred d ≠ some p
  complete : ∀ p ∈ s.all, (s.proc p).state = .ready →
    (∀ d, s.idle d ≠ some p ∧ s.current d ≠ some p ∧ s.deferred d ≠ some p) →
    ∀ i, p ∈ q i ↔ i = (s.proc p).priority

theorem Settled.intact (h : Settled o none s) : ∃ q, Intact s q := by
  obtain ⟨q, h⟩ := h
  refine ⟨q, h.lists.linked, h.lists.nodup, h.lists.apart, fun i p hi d => ?_,
    fun p hp hready hfree i => ?_⟩
  · exact ⟨(h.off i p hi).1 d (by simp), ((h.off i p hi).2 d).1⟩
  · constructor
    · exact fun hi => (h.prio i p hi).symm
    · rintro rfl
      exact h.queued p hp (by simp) hready fun d => (hfree d).2.2

/-- The process this CPU runs is given another state, as the callers of `schedule()` do. -/
def System.withCallerState (s : System) (c : Cpu) (state : ProcessState) : System :=
  match s.current c with
  | some p => s.setState p state
  | none => s

theorem Settled.withCallerState (h : Settled False none s) (c : Cpu) {state : ProcessState}
    (hstate : state ≠ .ready) : Settled False (some c) (s.withCallerState c state) := by
  unfold System.withCallerState
  have h := h.leave (some c)
  cases hcur : s.current c with
  | none => exact h
  | some p =>
    obtain ⟨q, h⟩ := h
    exact ⟨q, h.modifyCurrent (.inl rfl) hcur rfl hstate fun ho => ho.elim⟩

/-- In every reachable state the queues are intact and `getNextProcess` is exclusive, also
where `schedule()` and `schedule(frame)` call it, and every step comes to its end. -/
theorem ready_queues_intact (h : Reached (fun _ _ => True) s) : (∃ q, Intact s q) ∧
    (∀ c, Exclusive s c) ∧
    (∀ env c state, state ≠ .ready → ∀ s₁,
      reapTerminated (s.withCallerState c state) env c = some s₁ →
      (∀ s₂, leaveCurrent s₁ env c = some s₂ → Exclusive s₂ c) ∧
      ∀ frame s₂, interruptCurrent s₁ env c frame = some s₂ → Exclusive s₂ c) ∧
    ∀ env op, op.Possible s → ∃ s', step env s op = some s' := by
  have hs := settled_of_reached h
  refine ⟨hs.intact, fun c => (hs.leave (some c)).exclusive, ?_, ?_⟩
  · intro env c state hstate s₁ hreap
    have hs₁ := ((hs.withCallerState c hstate).reapTerminated env c).of_eq hreap
    refine ⟨fun s₂ hleave => ?_, fun frame s₂ hint => ?_⟩
    · exact ((hs₁.1.leaveCurrent fun ho => ho.elim).of_eq hleave).1.exclusive
    · exact ((hs₁.1.interruptCurrent (fun ho => ho.elim) frame).of_eq hint).1.exclusive
  · intro env op hpossible
    obtain ⟨s', hstep, _⟩ := hs.step (fun _ _ => True) env hpossible
      (fun ho => ho.elim) fun _ _ _ => trivial
    exact ⟨s', hstep⟩

/-- Files that nobody waits for. -/
def sampleEnv : Env := ⟨0, fun _ => false⟩

/-- One CPU and the first process from the boot image. -/
def sampleLaunched : System := (System.boot fun c => c == 0).after sampleEnv (.launch 1)

/-- Two CPUs run two of three processes, and the third one is ready. -/
def sampleBusy : System :=
  (((((System.boot fun c => c < 2).after sampleEnv (.launch 1)).after sampleEnv (.launch 1)).after
    sampleEnv (.launch 2)).after sampleEnv (.schedule 0)).after sampleEnv (.schedule 1)

theorem reached_busy (hlaunch : ∀ s i, ok s (.launch i)) (hschedule : ∀ s c, ok s (.schedule c)) :
    Reached ok sampleBusy := by
  have hlaunched : Reached ok
      ((((System.boot fun c => c < 2).after sampleEnv (.launch 1)).after sampleEnv
        (.launch 1)).after sampleEnv (.launch 2)) :=
    .after (.after (.after (.boot _) _ (.launch 1) ⟨nofun, trivial⟩ (hlaunch _ _)) _ (.launch 1)
      ⟨nofun, trivial⟩ (hlaunch _ _)) _ (.launch 2) ⟨nofun, trivial⟩ (hlaunch _ _)
  refine .after (.after hlaunched _ (.schedule 0) ⟨?_, trivial⟩ (hschedule _ _)) _ (.schedule 1)
    ⟨?_, trivial⟩ (hschedule _ _)
  all_goals
    rintro c ⟨⟩
    decide +kernel

theorem ready_queues_intact_busy :
    (∃ q, Intact sampleBusy q) ∧ sampleBusy.current 0 = some 18 ∧
      sampleBusy.current 1 = some 16 ∧ sampleBusy.readyQueues 1 = some 17 ∧
      ∀ c, Exclusive sampleBusy c := by
  have hall := ready_queues_intact (reached_busy (fun _ _ => trivial) fun _ _ => trivial)
  exact ⟨hall.1, by decide +kernel, by decide +kernel, by decide +kernel, hall.2.1⟩

end InstantOS.Sched

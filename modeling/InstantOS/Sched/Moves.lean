import InstantOS.Sched.Calls
import InstantOS.Sched.Scheduling

/-!
# What a step is made of

Every step of the system is a sequence of a few kinds of moves.  An invariant of whole runs
that speaks about processes and CPUs, not about queues, is therefore checked once for each
kind of move; `Sound` takes care of the queues.
-/

namespace InstantOS.Sched

open Sched.System

variable {o : Prop} {new : System → Process → Prop} {e : Option Cpu} {s s' s'' : System}
  {env : Env} {c : Cpu} {p : Ptr}

/-- A system with one more process, before it is queued. -/
def System.withProcess (s : System) (process : Process) : System :=
  { s with
    created := s.created + 1
    proc := Function.update s.proc s.created process
    next := Function.update s.next s.created none
    all := s.created :: s.all }

/-- One kind of change after the other.  `new` is what is known of new processes, and `o`
says whether the run is orderly. -/
inductive Move (o : Prop) (new : System → Process → Prop) : System → System → Prop
  | woken {s s' : System} (h : Woken True s s') : Move o new s s'
  | reaped {s s' : System} (h : Reaped s s') : Move o new s s'
  | killed {s s' : System} {c : Cpu} {p : Ptr} (hcur : s.current c = some p) (h : Killed p s s') :
      Move o new s s'
  | ended {s s' : System} {c : Cpu} {p : Ptr} (hcur : s.current c = some p)
      (hstate : (s.proc p).state = .terminated) (h : Ended p s s') : Move o new s s'
  | own {s : System} {c : Cpu} {p : Ptr} (hcur : s.current c = some p) (f : Process → Process)
      (hkin : Kin (s.proc p) (f (s.proc p)))
      (hdead : p ∈ s.all → (s.proc p).state = .terminated → (f (s.proc p)).state = .terminated) :
      Move o new s (s.modify p f)
  | affinity {s : System} (p : Ptr) (mask : BitVec 64) :
      Move o new s (s.modify p fun process => { process with cpuAffinity := mask })
  | switched {s s₁ : System} {c : Cpu} {next : Ptr} (userRSP : Word)
      (havailable : Available o c s next) (hleft : Reported c s)
      (hmade : Requeued ((s.setCurrent c (some next)).setState next .running) s₁) :
      Move o new s (switchTo s₁ c (s.current c) next userRSP)
  | resumed {s s₁ s' : System} {c : Cpu} {next : Ptr} (havailable : Available o c s next)
      (hleft : Reported c s) (hvalid : (s.proc next).validUserState = true)
      (hmade : Requeued ((s.setCurrent c (some next)).setState next .running) s₁)
      (hpark : s' = s₁ ∨ ∃ p s₂ s₃, s.current c = some p ∧ p ≠ next ∧ Unparked c s₁ s₂ ∧
        Requeued s₂ s₃ ∧ s' = s₃.setDeferred c (some p)) : Move o new s s'
  | idles {s : System} {c : Cpu} {p : Ptr} (hnone : s.current c = none) (hidle : p ∉ s.all) :
      Move o new s ((s.setCurrent c (some p)).setState p .running)
  | unparked {s s' : System} {c : Cpu} (h : Unparked c s s') : Move o new s s'
  | registers {s : System} (c : Cpu) (high : HighRegisters) :
      Move o new s (s.setCpu c fun cpu => { cpu with high := high })
  | pid {s : System} : Move o new s (takePID s)
  | made {s s' : System} (process : Process) (hnew : new s process) (hfresh : s.created ∉ s.all)
      (h : Requeued (s.withProcess process) s') : Move o new s s'
  | removed {s s' : System} {c : Cpu} {p : Ptr} (hp : p ∈ s.all)
      (hdead : o → ¬ isBusyOnAnyCpu s p ∧ (s.proc p).state = .terminated)
      (h : Woken False
        { (if s.current c = some p then
            (s.setCurrent c none).modify p fun process => { process with validUserState := false }
          else s) with
          all := s.all.erase p
          deleted := p :: s.deleted } s') : Move o new s s'

abbrev Moves (o : Prop) (new : System → Process → Prop) : System → System → Prop :=
  Relation.ReflTransGen (Move o new)

theorem Moves.of_woken {sig : Prop} (h : Woken sig s s') : Moves o new s s' := by
  refine .single (.woken ?_)
  exact { h with proc := fun p => { (h.proc p) with pending := fun hno => absurd trivial hno } }

theorem Moves.of_requeued (h : Requeued s s') : Moves o new s s' :=
  .single (.woken (.of_requeued h))

/-- The process a CPU runs takes another state. -/
theorem Moves.setState {state : ProcessState} (hcur : s.current c = some p)
    (hdead : p ∈ s.all → (s.proc p).state = .terminated → state = .terminated) :
    Moves o new s (s.setState p state) :=
  .single (.own hcur _ ⟨rfl, rfl, rfl, rfl⟩ hdead)

/-! ## The scheduler -/

theorem Left.moves (h : Left c s s') : Moves o new s s' := by
  cases h with
  | nobody hcur => exact .refl
  | idle hcur hkilled hidle => exact .single (.killed hcur hkilled)
  | ended hcur hkilled hidle hstate hended =>
    refine .tail (.single (.killed hcur hkilled)) (.ended (c := c) ?_ hstate hended)
    exact (current_eq hkilled.cpus c).trans hcur
  | queued hcur hkilled hidle hstate hqueue =>
    refine Relation.ReflTransGen.trans (.tail (.single (.killed hcur hkilled))
      (.own (c := c) ?_ _ ⟨rfl, rfl, rfl, rfl⟩ fun _ hdead => ?_)) (Moves.of_requeued hqueue)
    · exact (current_eq hkilled.cpus c).trans hcur
    · rw [hstate] at hdead
      cases hdead
  | waits hcur hkilled hidle hterminated hrunning => exact .single (.killed hcur hkilled)

theorem Scheduled.moves (h : Scheduled o c s s') : Moves o new s s' := by
  obtain ⟨s₁, s₂, s₃, s4, next, hreaped, hleft, hsame, hreported, havailable, hmade, rfl⟩ := h
  exact .tail (.trans (.trans (.single (.reaped hreaped)) hleft.moves) (Moves.of_requeued hsame))
    (.switched _ havailable hreported hmade)

variable {frame : InterruptFrame} {old : Option Ptr}

theorem Interrupted.moves (h : Interrupted c frame s s') : Moves o new s s' := by
  cases h with
  | nobody hcur => exact .refl
  | @process p s₁ s₂ _ hcur hkilled hended hready =>
    have hcur1 : s₁.current c = some p := (current_eq hkilled.cpus c).trans hcur
    have hmid : Moves o new s s₂ := by
      rcases hended with ⟨hstate, hended⟩ | ⟨_, rfl⟩
      · exact .tail (.single (.killed hcur hkilled)) (.ended hcur1 hstate hended)
      · exact .single (.killed hcur hkilled)
    have hcur2 : s₂.current c = some p := by
      rcases hended with ⟨_, hended⟩ | ⟨_, rfl⟩
      · exact (current_eq hended.cpus c).trans hcur1
      · exact hcur1
    have hsaved : Moves o new s₂ (saveUserState s₂ p frame) := by
      unfold saveUserState
      split
      · exact .single (.own hcur2 _ ⟨rfl, rfl, rfl, rfl⟩ fun _ hdead => hdead)
      · exact .refl
    rcases hready with ⟨hstate, hqueue⟩ | ⟨_, rfl⟩
    · have hcur3 : (saveUserState s₂ p frame).current c = some p :=
        (current_eq (saveUserState_cpus s₂ p frame) c).trans hcur2
      have hset : Moves o new (saveUserState s₂ p frame)
          ((saveUserState s₂ p frame).setState p .ready) := .setState hcur3 fun _ hdead => by
        rw [saveUserState_state, hstate] at hdead
        cases hdead
      exact ((hmid.trans hsaved).trans hset).trans (Moves.of_requeued hqueue)
    · exact hmid.trans hsaved

section

variable {next : Ptr} (h : FrameChosen o c frame s s' old next)

include h

theorem FrameChosen.current : s'.current c = old := by
  obtain ⟨s₁, s₂, _, hold, hint, hsame, _⟩ := h
  rw [hsame.current, current_eq hint.cpus, hold]

theorem FrameChosen.moves : Moves o new s s' := by
  obtain ⟨s₁, s₂, hreaped, _, hint, hsame, _⟩ := h
  exact .trans (.trans (.single (.reaped hreaped)) hint.moves) (Moves.of_requeued hsame)

theorem FrameChosen.ready : Reported c s' ∧ Available o c s' next := by
  obtain ⟨s₁, s₂, _, _, _, _, hready⟩ := h
  exact hready

end

theorem FrameScheduled.moves {r : Resumed}
    (h : FrameScheduled o c frame s r s') : Moves o new s s' := by
  have hkept : ∀ {s₃ s4 : System} {next : Ptr},
      Requeued ((s₃.setCurrent c (some next)).setState next .running) s4 →
      (s4.proc next).validUserState → (s₃.proc next).validUserState := by
    intro s₃ s4 next hmade hvalid
    rw [hmade.proc, setState, modify_self] at hvalid
    exact hvalid
  cases h with
  | @same s₃ old next hchosen hold hidle =>
    refine hchosen.moves.trans (Moves.setState (c := c) ?_ fun hmem => absurd hmem hidle)
    rw [hchosen.current, hold]
  | frame hchosen hmade hvalid hstay =>
    exact hchosen.moves.tail
      (.resumed hchosen.ready.2 hchosen.ready.1 (hkept hmade hvalid) hmade (.inl rfl))
  | parked hchosen hmade hvalid hne hidle hunparked hqueue =>
    exact hchosen.moves.tail (.resumed hchosen.ready.2 hchosen.ready.1 (hkept hmade hvalid) hmade
      (.inr ⟨_, _, _, hchosen.current, hne, hunparked, hqueue, rfl⟩))
  | kernel hchosen hmade hvalid =>
    rw [← hchosen.current]
    exact hchosen.moves.tail (.switched _ hchosen.ready.2 hchosen.ready.1 hmade)

end InstantOS.Sched

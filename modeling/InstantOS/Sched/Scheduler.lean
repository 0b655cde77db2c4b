import InstantOS.Base.IntrusiveList
import Mathlib.Data.Fintype.Basic

/-!
# The scheduler

Four ready queues through one `next` pointer, a list of all processes, and for each CPU the
process it runs, its idle process and at most one parked process.  Everything below runs
under the kernel lock, so an operation is a function of the whole state; it returns `none`
if a walk over a ready queue does not end.

A `Process` is named by its address, a number below `created`: memory of a deleted process
that is used again for a new one counts as a new address.  What the scheduler does to the
FPU state, the page table register and the segment bases is left out, and so are the
interrupts it sends to other CPUs.
-/

namespace InstantOS.Sched

open IntrusiveList Function

/-- `SMP::kMaxCPUs`. -/
def maxCPUs : Nat := 16

abbrev Cpu := Fin maxCPUs

instance : NeZero maxCPUs := ⟨by decide⟩

/-- The address of a `Process`. -/
abbrev Ptr := Nat

inductive ProcessState
  | ready | running | blocked | terminated
deriving DecidableEq, Repr

/-- `ProcessPriority`: low, normal, high and idle. -/
abbrev ProcessPriority := Fin 4

scoped instance priority_pos : NeZero 4 := ⟨by decide⟩

abbrev Word := BitVec 64

/-- The registers of an interrupt frame that `schedule` copies. -/
structure FrameRegisters where
  rip : Word
  rsp : Word
  rflags : Word
  rax : Word
  rbx : Word
  rcx : Word
  rdx : Word
  rsi : Word
  rdi : Word
  rbp : Word
  r8 : Word
  r9 : Word
  r10 : Word
  r11 : Word
deriving DecidableEq, Repr

structure InterruptFrame where
  registers : FrameRegisters
  cs : Word
  ss : Word
deriving DecidableEq, Repr

/-- The registers that no interrupt frame holds. -/
structure HighRegisters where
  r12 : Word
  r13 : Word
  r14 : Word
  r15 : Word
deriving DecidableEq, Repr

/-- `kUserCodeSelector` and `kUserDataSelector`. -/
def userCodeSelector : Word := 0x23
def userDataSelector : Word := 0x1B

/-- `SIGKILL`, `SIGALRM` and `SIGCHLD`, and the number of signals. -/
def sigKill : Nat := 9
def sigAlrm : Nat := 14
def sigChld : Nat := 17
def nsig : Nat := 64

/-- The fields of a `Process` that the scheduler and the process calls use.  `thread` says
that it has a `ThreadObject`; `sharedState` is the address of its `ProcessSharedState`.
`high` is what `switchContext` keeps of `r12` to `r15` while the process does not run. -/
structure Process where
  pid : Nat
  parentPID : Nat
  state : ProcessState
  priority : ProcessPriority
  cpuAffinity : BitVec 64
  thread : Bool
  sharedState : Nat
  pending : BitVec 64
  exitCode : Int
  exitRequested : Bool
  terminationHandled : Bool
  sleeping : Bool
  sleepDeadlineMs : Nat
  sleepWakesOnEvents : Bool
  alarmDeadlineMs : Nat
  alarmIntervalMs : Nat
  validUserState : Bool
  savedUserRSP : Word
  context : FrameRegisters
  high : HighRegisters
deriving DecidableEq, Repr

namespace Process

def mayRunOn (p : Process) (cpu : Cpu) : Bool := p.cpuAffinity.getLsbD cpu

def killPending (p : Process) : Bool := p.pending.getLsbD sigKill

def clearSleep (p : Process) : Process :=
  { p with sleepDeadlineMs := 0, sleeping := false, sleepWakesOnEvents := false }

def sleepUntil (p : Process) (deadlineMs : Nat) (wakesOnEvents : Bool) : Process :=
  { p with sleepDeadlineMs := deadlineMs, sleeping := true, sleepWakesOnEvents := wakesOnEvents }

/-- What `terminateIfKilled` leaves of a process. -/
def killed (p : Process) : Process :=
  { p with
    state := .terminated
    exitCode := if p.exitRequested then p.exitCode else 128 + sigKill }

def sleepDeadlineReached (p : Process) (nowMs : Nat) : Bool :=
  p.sleeping && decide (p.sleepDeadlineMs ≤ nowMs)

end Process

/-- The part of `PerCPUData` the scheduler uses, and the registers `r12` to `r15` the CPU
has for the process it runs. -/
structure PerCPU where
  currentProcess : Option Ptr
  idleProcess : Option Ptr
  deferredProcess : Option Ptr
  userRSP : Word
  high : HighRegisters
deriving DecidableEq, Repr

/-- The scheduler and the processes; `deleted` lists the processes that were deleted. -/
structure System where
  proc : Ptr → Process
  next : Ptr → Option Ptr
  readyQueues : ProcessPriority → Option Ptr
  all : List Ptr
  created : Nat
  nextPID : Nat
  cpus : Cpu → PerCPU
  deleted : List Ptr

/-- What an operation finds outside the scheduler: the time, and whether the files that a
dying process closes wake those who wait (`wakePipeWaiters` and its like). -/
structure Env where
  nowMs : Nat
  closing : Ptr → Bool

namespace System

variable (s : System)

def current (c : Cpu) : Option Ptr := (s.cpus c).currentProcess

def idle (c : Cpu) : Option Ptr := (s.cpus c).idleProcess

def deferred (c : Cpu) : Option Ptr := (s.cpus c).deferredProcess

def modify (p : Ptr) (f : Process → Process) : System :=
  { s with proc := update s.proc p (f (s.proc p)) }

def setState (p : Ptr) (state : ProcessState) : System :=
  s.modify p fun process => { process with state := state }

def setCpu (c : Cpu) (f : PerCPU → PerCPU) : System :=
  { s with cpus := update s.cpus c (f (s.cpus c)) }

def setCurrent (c : Cpu) (p : Option Ptr) : System :=
  s.setCpu c fun cpu => { cpu with currentProcess := p }

def setDeferred (c : Cpu) (p : Option Ptr) : System :=
  s.setCpu c fun cpu => { cpu with deferredProcess := p }

/-- New links for the queue of a priority. -/
def relink (i : ProcessPriority) (links : (Ptr → Option Ptr) × Option Ptr) : System :=
  { s with next := links.1, readyQueues := update s.readyQueues i links.2 }

/-- A walk over more nodes than there ever were processes does not end. -/
def fuel : Nat := s.created

section

variable (c d : Cpu) (p : Ptr) (r : Option Ptr) (f : Process → Process)
  (g : PerCPU → PerCPU) (state : ProcessState)

@[simp] theorem modify_self : (s.modify p f).proc p = f (s.proc p) := update_self ..

theorem modify_of_ne {a : Ptr} (h : a ≠ p) : (s.modify p f).proc a = s.proc a := update_of_ne h _ _

/-- What `f` leaves alone in the process it changes stays as it is in every process. -/
theorem modify_keeps {β : Type} {g : Process → β} (hf : g (f (s.proc p)) = g (s.proc p)) (a : Ptr) :
    g ((s.modify p f).proc a) = g (s.proc a) := by
  rw [modify, apply_update fun _ => g, hf, update_eq_self]

@[simp] theorem modify_current : (s.modify p f).current d = s.current d := rfl
@[simp] theorem modify_deferred : (s.modify p f).deferred d = s.deferred d := rfl

@[simp] theorem setState_state : ((s.setState p state).proc p).state = state := by
  simp [setState]

@[simp] theorem setState_current : (s.setState p state).current d = s.current d := rfl
@[simp] theorem setState_idle : (s.setState p state).idle d = s.idle d := rfl
@[simp] theorem setState_deferred : (s.setState p state).deferred d = s.deferred d := rfl

theorem setCpu_cpus : (s.setCpu c g).cpus d = if d = c then g (s.cpus c) else s.cpus d := by
  by_cases h : d = c
  · subst h
    simp [setCpu]
  · simp [setCpu, h]

theorem setCpu_current (h : ∀ cpu, (g cpu).currentProcess = cpu.currentProcess) :
    (s.setCpu c g).current d = s.current d := by
  rw [current, setCpu_cpus, current]
  split
  · rename_i hd
    rw [h, hd]
  · rfl

theorem setCpu_idle (h : ∀ cpu, (g cpu).idleProcess = cpu.idleProcess) :
    (s.setCpu c g).idle d = s.idle d := by
  rw [idle, setCpu_cpus, idle]
  split
  · rename_i hd
    rw [h, hd]
  · rfl

theorem setCpu_deferred (h : ∀ cpu, (g cpu).deferredProcess = cpu.deferredProcess) :
    (s.setCpu c g).deferred d = s.deferred d := by
  rw [deferred, setCpu_cpus, deferred]
  split
  · rename_i hd
    rw [h, hd]
  · rfl

@[simp] theorem setCurrent_current :
    (s.setCurrent c r).current d = if d = c then r else s.current d := by
  rw [current, setCurrent, setCpu_cpus]
  split <;> rfl

@[simp] theorem setCurrent_idle : (s.setCurrent c r).idle d = s.idle d :=
  setCpu_idle s c d _ fun _ => rfl

@[simp] theorem setCurrent_deferred : (s.setCurrent c r).deferred d = s.deferred d :=
  setCpu_deferred s c d _ fun _ => rfl

@[simp] theorem setDeferred_current : (s.setDeferred c r).current d = s.current d :=
  setCpu_current s c d _ fun _ => rfl

@[simp] theorem setDeferred_idle : (s.setDeferred c r).idle d = s.idle d :=
  setCpu_idle s c d _ fun _ => rfl

@[simp] theorem setDeferred_deferred :
    (s.setDeferred c r).deferred d = if d = c then r else s.deferred d := by
  rw [deferred, setDeferred, setCpu_cpus]
  split <;> rfl

end

end System

/-! ## The ready queues -/

section

variable (s : System)

/-- `isBusyOnAnyCpu`. -/
def isBusyOnAnyCpu (p : Ptr) : Bool :=
  (List.finRange maxCPUs).any fun c => s.current c == some p || s.deferred c == some p

def parkedOnSomeCpu (p : Ptr) : Bool :=
  (List.finRange maxCPUs).any fun c => s.deferred c == some p

/-- The guards `addToReadyQueue` and `addToReadyQueueFront` share: the process is ready, not
parked, and not in its queue yet. -/
def addWith (p : Ptr) (insert : ProcessPriority → Option System) : Option System :=
  if (s.proc p).state ≠ .ready then some s
  else if parkedOnSomeCpu s p then some s
  else do
    let prio := (s.proc p).priority
    let found ← contains s.next p s.fuel (s.readyQueues prio)
    if found then some s else insert prio

def addToReadyQueue (p : Ptr) : Option System :=
  addWith s p fun prio => (append s.next (s.readyQueues prio) s.fuel p).map (s.relink prio)

def addToReadyQueueFront (p : Ptr) : Option System :=
  addWith s p fun prio =>
    some (s.relink prio (update s.next p (s.readyQueues prio), some p))

def removeFromReadyQueue (p : Ptr) : Option System :=
  let prio := (s.proc p).priority
  (unlink s.next (s.readyQueues prio) s.fuel p).map (s.relink prio)

/-- One priority of `getNextProcess`: the first process that may run here, moved to the end
of its queue. -/
def takeFrom (c : Cpu) (prio : ProcessPriority) : Option (Option Ptr × System) := do
  match ← firstWith s.next (fun p => (s.proc p).mayRunOn c) s.fuel none (s.readyQueues prio) with
  | none => some (none, s)
  | some (previous, p) =>
    let links ← moveToEnd s.next (s.readyQueues prio) s.fuel previous p
    some (some p, s.relink prio links)

/-- The priorities are tried in the given order; then there is the idle process. -/
def takeFirst (c : Cpu) : List ProcessPriority → Option (Option Ptr × System)
  | [] => some (s.idle c, s)
  | prio :: rest => do
    match ← takeFrom s c prio with
    | (some p, s) => some (some p, s)
    | (none, _) => takeFirst c rest

/-- `getNextProcess`: high, normal, low. -/
def getNextProcess (c : Cpu) : Option (Option Ptr × System) := takeFirst s c [2, 1, 0]

end

/-! ## Waking up -/

section

variable (s : System) (c : Cpu) (p : Ptr)

/-- `wakeProcess`, on the CPU `c`. -/
def wakeProcess : Option System :=
  if s.idle c = some p then some s
  else match (s.proc p).state with
    | .ready => addToReadyQueueFront s p
    | .blocked =>
      addToReadyQueueFront (s.modify p fun process => { process.clearSleep with state := .ready }) p
    | _ => some s

/-- `sendSignal`; signals are below `nsig`. -/
def sendSignal (sig : Nat) : Option System :=
  if nsig ≤ sig then some s
  else
    let s := s.modify p fun process =>
      { process with pending := process.pending ||| BitVec.twoPow 64 sig }
    if (s.proc p).state = .blocked then wakeProcess s c p else some s

/-- `requestExit`. -/
def requestExit (code : Int) : Option System :=
  sendSignal (s.modify p fun process => { process with exitRequested := true, exitCode := code })
    c p sigKill

/-- `getProcessByPID`: the idle process of this CPU first, then the list. -/
def getProcessByPID (pid : Nat) : Option Ptr :=
  match s.idle c with
  | some p => if (s.proc p).pid = pid then some p else s.all.find? fun q => (s.proc q).pid == pid
  | none => s.all.find? fun q => (s.proc q).pid == pid

def wakeParentOf : Option System :=
  if (s.proc p).parentPID = 0 then some s
  else match getProcessByPID s c (s.proc p).parentPID with
    | some parent => if (s.proc parent).state = .blocked then wakeProcess s c parent else some s
    | none => some s

/-- One turn of `wakeAllBlockedProcesses`: a sleeper that does not wait for events sleeps on
until its time. -/
def wakeBlocked (nowMs : Nat) (s : System) (p : Ptr) : Option System :=
  let process := s.proc p
  if process.state ≠ .blocked then some s
  else if process.sleeping ∧ ¬ process.sleepWakesOnEvents ∧ ¬ process.sleepDeadlineReached nowMs
    then some s
  else
    addToReadyQueue (s.modify p fun process => { process.clearSleep with state := .ready }) p

def wakeAllBlockedProcesses (nowMs : Nat) : Option System :=
  s.all.foldlM (wakeBlocked nowMs) s

/-- One turn of `wakeExpiredSleepers`: first the interval timer, then the sleep. -/
def wakeExpired (nowMs : Nat) (s : System) (p : Ptr) : Option System := do
  let process := s.proc p
  let s ← (if process.alarmDeadlineMs ≠ 0 ∧ process.alarmDeadlineMs ≤ nowMs then
      sendSignal (s.modify p fun process =>
        { process with alarmDeadlineMs :=
            if process.alarmIntervalMs ≠ 0 then nowMs + process.alarmIntervalMs else 0 })
        c p sigAlrm
    else some s)
  if (s.proc p).state = .blocked ∧ (s.proc p).sleepDeadlineReached nowMs then
    addToReadyQueueFront (s.modify p fun process => { process.clearSleep with state := .ready }) p
  else some s

def wakeExpiredSleepers (nowMs : Nat) : Option System :=
  s.all.foldlM (wakeExpired c nowMs) s

end

/-! ## Threads and the end of a process -/

section

variable (s : System) (e : Env) (c : Cpu) (p : Ptr)

/-- `sharesStateWith`, for processes that have a shared state. -/
def sharesStateWith (p q : Ptr) : Bool := (s.proc p).sharedState == (s.proc q).sharedState

/-- `hasOtherThreads`. -/
def hasOtherThreads : Bool := s.all.any fun q => q != p && sharesStateWith s q p

def killSibling (s : System) (q : Ptr) : Option System :=
  if q = p ∨ ¬ sharesStateWith s q p ∨ (s.proc q).state = .terminated then some s
  else sendSignal s c q sigKill

/-- `killSiblingThreads`; what it returns is `hasOtherThreads`. -/
def killSiblingThreads : Option System := s.all.foldlM (killSibling c p) s

def requestLeaderExit (caller : Ptr) (code : Int) (s : System) (p : Ptr) : Option System :=
  if ¬ (s.proc p).thread ∧ sharesStateWith s p caller ∧ (s.proc p).state ≠ .terminated then
    requestExit s c p code
  else some s

def exitThreadGroup (caller : Ptr) (code : Int) : Option System := do
  let s ← (if (s.proc caller).thread then s.all.foldlM (requestLeaderExit c caller code) s
    else some s)
  killSiblingThreads s c caller

/-- `closeFilesOnExit`, and what else closes the files of a process. -/
def closeFiles : Option System :=
  if e.closing p then wakeAllBlockedProcesses s e.nowMs else some s

/-- `terminateIfKilled`; the files are closed before the state changes. -/
def terminateIfKilled : Option System :=
  if (s.proc p).state = .terminated ∨ ¬ (s.proc p).killPending then some s
  else do
    let s ← closeFiles (s.modify p fun process =>
      { process with pending := process.pending &&& ~~~ BitVec.twoPow 64 sigKill }) e p
    some (s.modify p Process.killed)

/-- The children of a dead process belong to nobody. -/
def reparent : System :=
  { s with proc := fun q =>
      if q ∈ s.all ∧ q ≠ p ∧ ¬ (s.proc q).thread ∧ (s.proc q).parentPID = (s.proc p).pid then
        { s.proc q with parentPID := 0 }
      else s.proc q }

/-- `onProcessTerminated`: once for each process, and not for threads. -/
def onProcessTerminated : Option System :=
  if (s.proc p).thread ∨ (s.proc p).terminationHandled then some s
  else do
    let s := s.modify p fun process => { process with terminationHandled := true }
    let s ← killSiblingThreads s c p
    let s := reparent s p
    if (s.proc p).parentPID = 0 then some s
    else match getProcessByPID s c (s.proc p).parentPID with
      | some parent =>
        if (s.proc parent).state = .terminated then some s
        else do
          let s ← sendSignal s c parent sigChld
          if (s.proc parent).state = .blocked then wakeProcess s c parent else some s
      | none => some s

/-- `delete process;` for a process that is in no list any more. -/
def delete : Option System :=
  closeFiles { s with deleted := p :: s.deleted } e p

def addProcess (process : Process) : Option System :=
  let p := s.created
  let s := { s with
    created := p + 1
    proc := update s.proc p process
    next := update s.next p none
    all := p :: s.all }
  if process.state = .ready then addToReadyQueue s p else some s

/-- The test at the start of `removeProcess`. -/
def busyElsewhere (pid : Nat) : Bool :=
  match getProcessByPID s c pid with
  | some target => decide (s.current c ≠ some target) && isBusyOnAnyCpu s target
  | none => false

/-- `removeProcess`: not while another CPU is busy with the process.  No frame is kept in the
memory of a process that is deleted while it runs. -/
def removeProcess (pid : Nat) : Option System :=
  if busyElsewhere s c pid then some s
  else match s.all.find? fun q => (s.proc q).pid == pid with
    | none => some s
    | some p => do
      let s ← removeFromReadyQueue { s with all := s.all.erase p } p
      let s := if s.current c = some p then
          (s.setCurrent c none).modify p fun process => { process with validUserState := false }
        else s
      delete s e p

/-- One turn of `reapTerminated`.  The parent of a dead main thread is woken when the last
of its threads goes, since `wait` did not see it before. -/
def reap (s : System) (p : Ptr) : Option System :=
  let process := s.proc p
  if ¬ isBusyOnAnyCpu s p ∧ process.state = .terminated ∧ (process.thread ∨ process.parentPID = 0)
  then do
    let s ← removeFromReadyQueue { s with all := s.all.erase p } p
    let leader := if process.thread then
        s.all.find? fun q => ¬ (s.proc q).thread && sharesStateWith s q p
      else none
    let s ← delete s e p
    match leader with
    | some q => if (s.proc q).state = .terminated then wakeParentOf s c q else some s
    | none => some s
  else some s

def reapTerminated : Option System := s.all.foldlM (reap e c) s

/-- Whether a `wait` for `pid` by the process `parentPID` is about this process. -/
def isChildOf (parentPID : Nat) (pid : Int) (q : Ptr) : Bool :=
  !(s.proc q).thread && (s.proc q).parentPID == parentPID
    && (pid == -1 || pid == 0 || (decide (0 < pid) && (s.proc q).pid == pid.toNat % 2 ^ 32))

/-- A dead process that no CPU is busy with and whose threads are gone. -/
def removable (q : Ptr) : Bool :=
  (s.proc q).state == .terminated && !isBusyOnAnyCpu s q && !hasOtherThreads s q

/-- `findChild`; `terminatedOnly` asks for a child that can be removed.  The flag says
whether there is a matching child at all. -/
def findChild (parentPID : Nat) (pid : Int) (terminatedOnly : Bool) : Option Ptr × Bool :=
  let children := s.all.filter (isChildOf s parentPID pid)
  (children.find? fun q => !terminatedOnly || removable s q, !children.isEmpty)

end

/-! ## Switching -/

section

variable (s : System) (e : Env) (c : Cpu)

/-- `onKernelEntry`: the parked process of this CPU is released. -/
def onKernelEntry : Option System :=
  match s.deferred c with
  | none => some s
  | some parked =>
    let s := s.setDeferred c none
    match (s.proc parked).state with
    | .ready => addToReadyQueue s parked
    | .terminated => wakeParentOf s c parked
    | _ => some s

def deferUntilNextEntry (p : Ptr) : Option System := do
  let s ← onKernelEntry s c
  let s ← removeFromReadyQueue s p
  some (s.setDeferred c (some p))

/-- The process becomes the one this CPU runs and leaves its queue. -/
def makeCurrent (next : Ptr) : Option System :=
  let s := (s.setCurrent c (some next)).setState next .running
  if s.idle c = some next then some s else removeFromReadyQueue s next

/-- `switchTo`, with what surrounds it: the process that is left cannot return to user mode
from its context any more, and `switchContext` keeps its `r12` to `r15` and loads those of
the next.  Nothing is kept of an idle process. -/
def switchTo (old : Option Ptr) (next : Ptr) (userRSP : Word) : System :=
  let s := match old with
    | none => s
    | some old =>
      s.modify old fun process =>
        { process with
          validUserState := false
          savedUserRSP := userRSP
          high := if s.idle c = some old then process.high else (s.cpus c).high }
  s.setCpu c fun cpu =>
    { cpu with userRSP := (s.proc next).savedUserRSP, high := (s.proc next).high }

/-- What `schedule` does with the process that calls it. -/
def leaveCurrent : Option System :=
  match s.current c with
  | none => some s
  | some p => do
    let s ← terminateIfKilled s e p
    if s.idle c = some p then some s
    else match (s.proc p).state with
      | .terminated => onProcessTerminated s c p
      | .running => addToReadyQueue (s.setState p .ready) p
      | _ => some s

/-- `schedule()`.  When its frame is resumed later the process runs again, so the last test
of the source finds nothing. -/
def schedule : Option System := do
  let s ← reapTerminated s e c
  let s ← leaveCurrent s e c
  let (next, s) ← getNextProcess s c
  match next with
  | none => some s
  | some next =>
    let old := s.current c
    let s ← makeCurrent s c next
    some (switchTo s c old next (s.cpus c).userRSP)

/-- How `schedule(frame)` ends: the CPU goes on as it was, returns to a process through the
frame, or switches to the kernel context of one. -/
inductive Resumed
  | same
  | frame (next : Ptr) (frame : InterruptFrame)
  | kernel (next : Ptr)
deriving DecidableEq, Repr

/-- The registers of an interrupted user program are kept. -/
def saveUserState (p : Ptr) (frame : InterruptFrame) : System :=
  if frame.cs == userCodeSelector then
    s.modify p fun process => { process with context := frame.registers, validUserState := true }
  else s

/-- What `schedule(frame)` does with the process it interrupted. -/
def interruptCurrent (frame : InterruptFrame) : Option System :=
  let user := frame.cs == userCodeSelector
  match s.current c with
  | none => some s
  | some p => do
    let s ← (if s.idle c ≠ some p ∧ user then terminateIfKilled s e p else some s)
    let s ← (if (s.proc p).state = .terminated then onProcessTerminated s c p else some s)
    let s := saveUserState s p frame
    if (s.proc p).state = .running then
      let s := s.setState p .ready
      if s.idle c = some p then some s else addToReadyQueue s p
    else some s

/-- The frame through which `next` returns to user mode. -/
def returnFrame (frame : InterruptFrame) (registers : FrameRegisters) : InterruptFrame :=
  if frame.cs == userCodeSelector then { frame with registers := registers }
  else
    { registers := { registers with rflags := registers.rflags ||| 0x200 }
      cs := userCodeSelector
      ss := userDataSelector }

/-- Whether one of the two branches for new tasks goes back to the interrupted process. -/
def staysWith (frame : InterruptFrame) (old : Option Ptr) (next : Ptr) : Bool :=
  let fresh := !(s.proc next).validUserState
  let nextHasKernelResume := fresh && (s.proc next).savedUserRSP != 0
  match old with
  | some old =>
    (frame.cs == userCodeSelector) && ((s.proc old).state == .running) && fresh &&
      (!nextHasKernelResume || (s.proc next).savedUserRSP == 0)
  | none => false

/-- `schedule(frame)`. -/
def scheduleFrame (frame : InterruptFrame) : Option (Resumed × System) := do
  let user := frame.cs == userCodeSelector
  let s ← reapTerminated s e c
  let old := s.current c
  let s ← interruptCurrent s e c frame
  let (next, s) ← getNextProcess s c
  match next with
  | none => some (.same, s)
  | some next =>
    if old = some next ∧ s.idle c = some next then some (.same, s.setState next .running)
    else
      match staysWith s frame old next, old with
      | true, some old => do
        let s ← removeFromReadyQueue s old
        some (.same, (s.setState old .running).setCurrent c (some old))
      | _, _ => do
        let s ← makeCurrent s c next
        if (s.proc next).validUserState then
          let frame := returnFrame frame (s.proc next).context
          match old with
          | some old =>
            if old ≠ next ∧ s.idle c ≠ some old then do
              let s ← deferUntilNextEntry s c old
              some (.frame next frame, s)
            else some (.frame next frame, s)
          | none => some (.frame next frame, s)
        else
          let userRSP := if user then frame.registers.rsp else (s.cpus c).userRSP
          some (.kernel next, switchTo s c old next userRSP)

end

end InstantOS.Sched

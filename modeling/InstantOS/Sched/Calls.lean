import InstantOS.Sched.Scheduler

/-!
# Who calls the scheduler

The system calls and interrupts that create, block, wake, signal and end processes.  A call
runs under the kernel lock from its entry to its end, or to the `schedule()` it makes, and
interrupts are off meanwhile; so a process that marks itself blocked calls `schedule()`
before anything else happens, and the two are one step here.
-/

namespace InstantOS.Sched

-- the system, what it is told, and the CPU a call is made on
variable (s : System) (e : Env) (c : Cpu)

/-- The process that makes a call on a CPU; the idle process makes none. -/
def System.caller : Option Ptr :=
  if s.current c = s.idle c then none else s.current c

/-- What a running program asks for. -/
def asCaller (act : Ptr → Option System) : Option System :=
  match s.caller c with
  | some p => act p
  | none => some s

/-! ## New processes -/

/-- `allocatePID` returns `nextPID` and goes on to the next one. -/
def takePID : System := { s with nextPID := (s.nextPID + 1) % 2 ^ 32 }

/-- The constructor of `Process`. -/
def Process.new (pid sharedState : Nat) : Process where
  pid := pid
  parentPID := 0
  state := .ready
  priority := 1
  cpuAffinity := BitVec.allOnes 64
  thread := false
  sharedState := sharedState
  pending := 0
  exitCode := 0
  exitRequested := false
  terminationHandled := false
  sleeping := false
  sleepDeadlineMs := 0
  sleepWakesOnEvents := false
  alarmDeadlineMs := 0
  alarmIntervalMs := 0
  validUserState := false
  savedUserRSP := 0
  context := ⟨0, 0, 0, 0, 0, 0, 0, 0, 0, 0, 0, 0, 0, 0⟩
  high := ⟨0, 0, 0, 0⟩

/-- The process takes the next pid and is added. -/
def create (process : Process) : Option System := addProcess (takePID s) process

/-- A process from the boot image; `priority` is what the loader chose. -/
def launched (priority : ProcessPriority) : Process :=
  { Process.new s.nextPID s.created with priority := priority }

/-- The child of `sys_spawn`. -/
def spawned (p : Ptr) (priority : ProcessPriority) : Process :=
  { Process.new s.nextPID s.created with
    priority := priority
    parentPID := (s.proc p).pid
    cpuAffinity := (s.proc p).cpuAffinity }

/-- The child of `sys_fork`. -/
def forked (p : Ptr) : Process :=
  { Process.new s.nextPID s.created with
    parentPID := (s.proc p).pid
    cpuAffinity := (s.proc p).cpuAffinity }

/-- The new thread of `sys_thread_create` and `sys_thread_clone`. -/
def cloned (p : Ptr) : Process :=
  { Process.new s.nextPID (s.proc p).sharedState with
    thread := true
    parentPID := (s.proc p).pid
    priority := (s.proc p).priority
    cpuAffinity := (s.proc p).cpuAffinity }

def launch (priority : ProcessPriority) : Option System :=
  create s (launched s priority)

/-- `sys_spawn`. -/
def sysSpawn (priority : ProcessPriority) : Option System :=
  asCaller s c fun p => create s (spawned s p priority)

/-- `sys_fork`; a thread cannot call it. -/
def sysFork : Option System :=
  asCaller s c fun p => if (s.proc p).thread then some s else create s (forked s p)

/-- `sys_thread_create` and `sys_thread_clone`. -/
def sysThreadCreate : Option System :=
  asCaller s c fun p => create s (cloned s p)

/-! ## Waiting -/

/-- `sleepUntil`, for the calls that wait with a deadline. -/
def setDeadline (p : Ptr) : Option (Nat × Bool) → System
  | some (ms, wakesOnEvents) => s.modify p fun process => process.sleepUntil ms wakesOnEvents
  | none => s

/-- What every blocking call does: an optional deadline, then `setState(Blocked)` and
`schedule()`. -/
def block (deadline : Option (Nat × Bool)) : Option System :=
  asCaller s c fun p => schedule ((setDeadline s p deadline).setState p .blocked) e c

/-- `sys_wait`, one turn of its loop; `copied` says whether the status could be stored. -/
def sysWait (pid : Int) (noHang copied : Bool) : Option System :=
  asCaller s c fun p =>
    let blocked := s.setState p .blocked
    match findChild blocked (blocked.proc p).pid pid true with
    | (some child, _) =>
      let s := blocked.setState p .running
      if copied then removeProcess s e c (s.proc child).pid else some s
    | (none, matching) =>
      if !matching || noHang then some (blocked.setState p .running) else schedule blocked e c

/-- `completeRequest`, the part that wakes the owner of the request. -/
def completeRequest (ownerPID : Nat) : Option System :=
  match getProcessByPID s c ownerPID with
  | some owner =>
    if (s.proc owner).state = .blocked then wakeProcess (s.setState owner .ready) c owner
    else some s
  | none => some s

/-! ## Signals and affinity -/

/-- `sys_kill`; pid 0 is the caller. -/
def sysKill (pid sig : Nat) : Option System :=
  asCaller s c fun p =>
    if nsig ≤ sig ∨ sig = 0 then some s
    else if pid = 0 then sendSignal s c p sig
    else if 2 ^ 32 ≤ pid then some s
    else match getProcessByPID s c pid with
      | some target => sendSignal s c target sig
      | none => some s

/-- `sys_sched_setaffinity` with a mask that names an online CPU. -/
def sysSchedSetaffinity (pid : Nat) (mask : BitVec 64) : Option System :=
  asCaller s c fun p =>
    let target := if pid = 0 then some p else if 2 ^ 32 ≤ pid then none else getProcessByPID s c pid
    match target with
    | none => some s
    | some target =>
      if (s.proc target).state = .terminated then some s
      else
        let s := s.modify target fun process => { process with cpuAffinity := mask }
        if target = p ∧ ¬ (s.proc target).mayRunOn c then schedule s e c else some s

/-! ## Ending -/

/-- The files are closed and the process is dead. -/
def die (p : Ptr) (code : Int) : Option System := do
  let s ← closeFiles (s.modify p fun process => { process with exitCode := code }) e p
  some (s.setState p .terminated)

/-- A death that takes the other threads along. -/
def dieWithGroup (p : Ptr) (code : Int) : Option System := do
  let s ← (if (s.proc p).thread then exitThreadGroup s c p code else some s)
  die s e p code

/-- `sys_exit`. -/
def sysExit (code : Int) : Option System :=
  asCaller s c fun p => do
    let s ← dieWithGroup s e c p code
    let s ← onProcessTerminated s c p
    schedule s e c

/-- `sys_thread_exit`; the main thread ends the process. -/
def sysThreadExit (code : Int) : Option System :=
  asCaller s c fun p =>
    if (s.proc p).thread then
      schedule ((s.modify p fun process => { process with exitCode := code }).setState p
        .terminated) e c
    else sysExit s e c code

/-- A signal is taken from the pending ones on the way out of a system call; `fatal` says
whether it ends the process, which is up to its handler. -/
def takeSignal (sig : Nat) (fatal : Bool) : Option System :=
  asCaller s c fun p =>
    if (s.proc p).state = .terminated ∨ (s.proc p).killPending then some s
    else do
      let s := s.modify p fun process =>
        { process with pending := process.pending &&& ~~~ BitVec.twoPow 64 sig }
      if fatal then do
        let s ← dieWithGroup s e c p (128 + sig)
        schedule s e c
      else some s

/-- A pending `SIGKILL` on the way out of a system call. -/
def killedAtExit : Option System :=
  asCaller s c fun p => do
    let s ← terminateIfKilled s e p
    if (s.proc p).state = .terminated then schedule s e c else some s

/-- A fault in user mode. -/
def userFault (frame : InterruptFrame) (code : Int) : Option System :=
  asCaller s c fun p => do
    let s ← dieWithGroup s e c p code
    let s := s.modify p fun process => { process with validUserState := false }
    (scheduleFrame s e c frame).map Prod.snd

/-- `replaceImageFrom`, with the state that `sys_exec` sets after it. -/
def Process.replaced (p : Process) : Process :=
  { p.clearSleep with
    validUserState := false
    savedUserRSP := 0
    exitCode := 0
    exitRequested := false
    pending := 0
    state := .running }

/-- `sys_exec` once the image is loaded, which took a pid: the other threads die first, and
`resumed` says that the caller slept for them.  A thread cannot call it. -/
def sysExec (resumed : Bool) : Option System :=
  asCaller s c fun p =>
    let s := if resumed then s else takePID s
    if (s.proc p).thread then some s
    else do
      let others := hasOtherThreads s p
      let s ← killSiblingThreads s c p
      if others then block s e c (some (e.nowMs + 1, false))
      else some (s.modify p Process.replaced)

/-! ## Entering and leaving the kernel -/

/-- `saveSyscallState`. -/
def syscallEntry (registers : FrameRegisters) : Option System := do
  let s ← onKernelEntry s c
  asCaller s c fun p =>
    some (s.modify p fun process =>
      { process with context := registers, validUserState := true })

/-- `restoreSyscallState`, without its signals. -/
def syscallReturn (registers : FrameRegisters) : Option System :=
  asCaller s c fun p =>
    if (s.proc p).validUserState then some s
    else
      some (s.modify p fun process =>
        { process with context := registers, validUserState := true })

/-- `runIdleOnThisCpu`. -/
def runIdleOnThisCpu : Option System :=
  match s.current c, s.idle c with
  | none, some p => some ((s.setCurrent c (some p)).setState p .running)
  | _, _ => some s

/-! ## Steps -/

inductive Op
  | launch (priority : ProcessPriority)
  | addProcess (process : Process)
  | removeProcess (c : Cpu) (pid : Nat)
  | reapTerminated (c : Cpu)
  | schedule (c : Cpu)
  | interrupt (c : Cpu) (frame : InterruptFrame)
  | wakeProcess (c : Cpu) (p : Ptr)
  | wakeAllBlockedProcesses
  | wakeExpiredSleepers (c : Cpu)
  | deferUntilNextEntry (c : Cpu) (p : Ptr)
  | onKernelEntry (c : Cpu)
  | runIdle (c : Cpu)
  | syscallEntry (c : Cpu) (registers : FrameRegisters)
  | syscallReturn (c : Cpu) (registers : FrameRegisters)
  | userCode (c : Cpu) (high : HighRegisters)
  | spawn (c : Cpu) (priority : ProcessPriority)
  | fork (c : Cpu)
  | threadCreate (c : Cpu)
  | block (c : Cpu) (deadline : Option (Nat × Bool))
  | wait (c : Cpu) (pid : Int) (noHang copied : Bool)
  | completeRequest (c : Cpu) (ownerPID : Nat)
  | kill (c : Cpu) (pid sig : Nat)
  | setAffinity (c : Cpu) (pid : Nat) (mask : BitVec 64)
  | exit (c : Cpu) (code : Int)
  | threadExit (c : Cpu) (code : Int)
  | takeSignal (c : Cpu) (sig : Nat) (fatal : Bool)
  | killedAtExit (c : Cpu)
  | userFault (c : Cpu) (frame : InterruptFrame) (code : Int)
  | exec (c : Cpu) (resumed : Bool)

/-- One step in an environment. -/
def step (s : System) : Op → Option System
  | .launch priority => launch s priority
  | .addProcess process => addProcess s process
  | .removeProcess c pid => removeProcess s e c pid
  | .reapTerminated c => reapTerminated s e c
  | .schedule c => schedule s e c
  | .interrupt c frame => (scheduleFrame s e c frame).map Prod.snd
  | .wakeProcess c p => wakeProcess s c p
  | .wakeAllBlockedProcesses => wakeAllBlockedProcesses s e.nowMs
  | .wakeExpiredSleepers c => wakeExpiredSleepers s c e.nowMs
  | .deferUntilNextEntry c p => deferUntilNextEntry s c p
  | .onKernelEntry c => onKernelEntry s c
  | .runIdle c => runIdleOnThisCpu s c
  | .syscallEntry c registers => syscallEntry s c registers
  | .syscallReturn c registers => syscallReturn s c registers
  | .userCode c high => asCaller s c fun _ => some (s.setCpu c fun cpu => { cpu with high := high })
  | .spawn c priority => sysSpawn s c priority
  | .fork c => sysFork s c
  | .threadCreate c => sysThreadCreate s c
  | .block c deadline => block s e c deadline
  | .wait c pid noHang copied => sysWait s e c pid noHang copied
  | .completeRequest c ownerPID => completeRequest s c ownerPID
  | .kill c pid sig => sysKill s c pid sig
  | .setAffinity c pid mask => sysSchedSetaffinity s e c pid mask
  | .exit c code => sysExit s e c code
  | .threadExit c code => sysThreadExit s e c code
  | .takeSignal c sig fatal => takeSignal s e c sig fatal
  | .killedAtExit c => killedAtExit s e c
  | .userFault c frame code => userFault s e c frame code
  | .exec c resumed => sysExec s e c resumed

/-- The CPU a step happens on. -/
def Op.cpu : Op → Option Cpu
  | .launch _ | .addProcess _ | .wakeAllBlockedProcesses => none
  | .removeProcess c _ | .reapTerminated c | .schedule c | .interrupt c _ | .wakeProcess c _
  | .wakeExpiredSleepers c | .deferUntilNextEntry c _ | .onKernelEntry c | .runIdle c
  | .syscallEntry c _ | .syscallReturn c _ | .userCode c _ | .spawn c _ | .fork c
  | .threadCreate c | .block c _ | .wait c .. | .completeRequest c _ | .kill c ..
  | .setAffinity c .. | .exit c _ | .threadExit c _ | .takeSignal c .. | .killedAtExit c
  | .userFault c .. | .exec c _ => some c

/-- The process a step adds. -/
def Op.creates : Op → Option Process
  | .launch priority => some (launched s priority)
  | .addProcess process => some process
  | .spawn c priority => (s.caller c).map fun p => spawned s p priority
  | .fork c => (s.caller c).bind fun p => if (s.proc p).thread then none else some (forked s p)
  | .threadCreate c => (s.caller c).map (cloned s)
  | _ => none

/-- What a step can be asked for: it happens on a CPU that was started, which has an idle
process, and a process that is named is one of the list. -/
def Op.Possible (op : Op) : Prop :=
  (∀ c, op.cpu = some c → s.idle c ≠ none) ∧
    match op with
    | .wakeProcess _ p | .deferUntilNextEntry _ p => p ∈ s.all
    | _ => True

/-- The idle process of a CPU. -/
def Process.idleProcess : Process := { Process.new 0 0 with priority := 3 }

/-- Before the first process: the CPUs that will be started have their idle processes. -/
def System.boot (online : Cpu → Bool) : System where
  proc := fun _ => .idleProcess
  next := fun _ => none
  readyQueues := fun _ => none
  all := []
  created := maxCPUs
  nextPID := 1
  cpus := fun c =>
    { currentProcess := none
      idleProcess := if online c then some c else none
      deferredProcess := none
      userRSP := 0
      high := ⟨0, 0, 0, 0⟩ }
  deleted := []

/-- The systems that runs lead to whose steps all meet `ok`. -/
inductive Reached (ok : System → Op → Prop) : System → Prop
  | boot (online : Cpu → Bool) : Reached ok (.boot online)
  | step {s s' : System} (hs : Reached ok s) (e : Env) (op : Op) (hpossible : op.Possible s)
      (hop : ok s op) (hstep : step e s op = some s') : Reached ok s'

end InstantOS.Sched

import InstantOS.Base.Words

/-!
# Signals

What a thread keeps about its signals, the calls that change it, the delivery of a pending
signal to a handler on the user stack (`handlePendingSignals`), and `sys_sigreturn`.  The
memory is the user memory as the kernel reads and writes it through its own pointers.
-/

namespace InstantOS.Signal

open Bytes Function

/-! ## Data -/

/-- The `NSIG` signals. -/
abbrev Sig := Fin 64

scoped instance sig_pos : NeZero 64 := ⟨by decide⟩

def sigkill : Sig := 9

def saOnstack : Word := 0x08000000
def ssOnstack : BitVec 32 := 1
def ssDisable : BitVec 32 := 2

/-- The end of the user half. -/
def userEnd : Nat := 0x0000800000000000

def bit (sig : Sig) : Word := 1 <<< sig.val

def defaultIgnoredSignal (sig : Sig) : Bool :=
  sig = 17 || sig = 18 || sig = 19 || sig = 20 || sig = 21 || sig = 22 || sig = 23 || sig = 28

structure ProcessContext where
  rax : Word
  rbx : Word
  rcx : Word
  rdx : Word
  rsi : Word
  rdi : Word
  rbp : Word
  rsp : Word
  r8 : Word
  r9 : Word
  r10 : Word
  r11 : Word
  r12 : Word
  r13 : Word
  r14 : Word
  r15 : Word
  rip : Word
  rflags : Word
  cr3 : Word
  xstate : Word
deriving DecidableEq, Repr

structure SignalHandler where
  handlers : Sig → Word
  masks : Sig → Word
  flags : Sig → Word
  restorers : Sig → Word
  pending : Word
  blocked : Word
  altStackSp : Word
  altStackSize : Word
  altStackFlags : BitVec 32

/-- A thread and the memory it sees. -/
structure Process where
  context : ProcessContext
  signals : SignalHandler
  memory : Bytes
  terminated : Bool
  exitRequested : Bool
  exitCode : Int

/-- The signal state of a new process, and after `exec`. -/
def SignalHandler.initial : SignalHandler where
  handlers := fun _ => 0
  masks := fun _ => 0
  flags := fun _ => 0
  restorers := fun _ => 0
  pending := 0
  blocked := 0
  altStackSp := 0
  altStackSize := 0
  altStackFlags := ssDisable

/-- A new thread starts with the dispositions and the mask of its creator, but without its
alternate stack. -/
def SignalHandler.inherited (h : SignalHandler) : SignalHandler :=
  { SignalHandler.initial with
    handlers := h.handlers
    masks := h.masks
    flags := h.flags
    restorers := h.restorers
    blocked := h.blocked }

def validSignalMask (mask : Word) : Word :=
  mask &&& BitVec.allOnes 64 &&& ~~~1 &&& ~~~bit sigkill

/-! ## The frame on the user stack -/

/-- Both copies of the struct, in `process.cpp` and in `signal.cpp`, have this layout. -/
structure UserSignalFrame where
  rip : Word
  rsp : Word
  blocked : Word
  rax : Word
  rdi : Word
  rsi : Word
  rdx : Word
  rcx : Word
  r8 : Word
  r9 : Word
  r10 : Word
  r11 : Word
  rflags : Word
  altStackFlags : Word
deriving DecidableEq, Repr

namespace UserSignalFrame

/-- `sizeof(UserSignalFrame)`. -/
def size : Nat := 112

def words (f : UserSignalFrame) : List Word :=
  [f.rip, f.rsp, f.blocked, f.rax, f.rdi, f.rsi, f.rdx, f.rcx, f.r8, f.r9, f.r10, f.r11, f.rflags,
    f.altStackFlags]

def ofWords (word : Nat → Word) : UserSignalFrame where
  rip := word 0
  rsp := word 1
  blocked := word 2
  rax := word 3
  rdi := word 4
  rsi := word 5
  rdx := word 6
  rcx := word 7
  r8 := word 8
  r9 := word 9
  r10 := word 10
  r11 := word 11
  rflags := word 12
  altStackFlags := word 13

/-- The frame that `a` points to. -/
def load (m : Bytes) (a : Word) : UserSignalFrame :=
  ofWords fun k => loadWord m (a + BitVec.ofNat 64 (8 * k))

end UserSignalFrame

/-! ## Delivery -/

section

variable (p : Process) (sig : Sig)

def usesAltStack (h : SignalHandler) : Bool :=
  h.flags sig &&& saOnstack ≠ 0 && h.altStackFlags &&& (ssDisable ||| ssOnstack) = 0
    && h.altStackSp ≠ 0 && decide (2048 ≤ h.altStackSize.toNat)

/-- Where the return address goes; the frame follows it. -/
def frameStack : Word :=
  let top := if usesAltStack sig p.signals then p.signals.altStackSp + p.signals.altStackSize
    else p.context.rsp
  ((top - BitVec.ofNat 64 UserSignalFrame.size - 16) &&& ~~~0xF) + 8

/-- The state that `sys_sigreturn` is to bring back. -/
def savedFrame : UserSignalFrame where
  rip := p.context.rip
  rsp := p.context.rsp
  blocked := p.signals.blocked
  rax := p.context.rax
  rdi := p.context.rdi
  rsi := p.context.rsi
  rdx := p.context.rdx
  rcx := p.context.rcx
  r8 := p.context.r8
  r9 := p.context.r9
  r10 := p.context.r10
  r11 := p.context.r11
  rflags := p.context.rflags
  altStackFlags := p.signals.altStackFlags.setWidth 64

/-- The mask while the handler of `sig` runs. -/
def blockedInHandler : Word :=
  let blocked := p.signals.blocked ||| (p.signals.masks sig ||| bit sig)
  if sig = sigkill then blocked &&& ~~~bit sigkill else blocked

/-- The last part of the loop's body: the handler is set up to run next. -/
def enterHandler : Process :=
  { p with
    memory := storeWords p.memory (frameStack p sig)
      ((if p.signals.restorers sig ≠ 0 then p.signals.restorers sig else p.context.rip)
        :: (savedFrame p).words)
    signals := { p.signals with
      blocked := blockedInHandler p sig
      altStackFlags := if usesAltStack sig p.signals then p.signals.altStackFlags ||| ssOnstack
        else p.signals.altStackFlags }
    context := { p.context with
      rip := p.signals.handlers sig
      rsp := frameStack p sig
      rdi := BitVec.ofNat 64 sig.val } }

def Process.take : Process :=
  { p with signals := { p.signals with pending := p.signals.pending &&& ~~~bit sig } }

def Process.terminate (exitCode : Int) : Process :=
  { p with terminated := true, exitCode }

def killPending : Bool := p.signals.pending &&& bit sigkill ≠ 0

def terminateIfKilled : Process :=
  (p.take sigkill).terminate (if p.exitRequested then p.exitCode else 128 + 9)

end

/-- The loop of `handlePendingSignals` over the signals that are left, and the signal whose
handler was entered, if any. -/
def deliverNext (p : Process) : List Sig → Process × Option Sig
  | [] => (p, none)
  | sig :: sigs =>
    if p.signals.pending &&& bit sig = 0 then deliverNext p sigs
    else if p.signals.blocked &&& bit sig ≠ 0 then deliverNext p sigs
    else if sig = sigkill then ((p.take sig).terminate (128 + sig.val), none)
    else if p.signals.handlers sig = 1 then deliverNext (p.take sig) sigs
    else if p.signals.handlers sig = 0 then
      if defaultIgnoredSignal sig then deliverNext (p.take sig) sigs
      else ((p.take sig).terminate (128 + sig.val), none)
    else (enterHandler (p.take sig) sig, some sig)

def handlePendingSignals (p : Process) : Process × Option Sig :=
  if p.terminated then (p, none)
  else if p.signals.pending = 0 then (p, none)
  -- `SIGKILL` wins over any lower-numbered signal that has a handler
  else if killPending p then (terminateIfKilled p, none)
  else deliverNext p (List.finRange 64)

/-! ## Calls -/

def syscallError (error : Word) : Word := -error

def sysErrInvalid : Word := syscallError 22

section

-- `pagesValid` is the walk over the pages of a range: each is mapped for the user or lies in a
-- reserved region
variable (pagesValid : Word → Word → Bool) (p : Process)

def isValidUserPointer (ptr size : Word) : Bool :=
  if size = 0 then decide (ptr.toNat < userEnd)
  else if 0xFFFF800000000000 ≤ ptr.toNat then false
  else if ptr = 0 then false
  else if (ptr + size).toNat < ptr.toNat then false
  else if userEnd ≤ (ptr + size).toNat then false
  else pagesValid ptr size

def sysSignal (sig handler : Word) : Process × Word :=
  if h : sig = 0 ∨ 64 ≤ sig.toNat ∨ sig = 9 then (p, sysErrInvalid)
  else
    let sig : Sig := ⟨sig.toNat, by omega⟩
    ({ p with signals := { p.signals with
        handlers := update p.signals.handlers sig handler
        masks := update p.signals.masks sig 0
        flags := update p.signals.flags sig 0
        restorers := update p.signals.restorers sig 0 } },
      p.signals.handlers sig)

def sysSigreturn : Process × Word :=
  let frame := UserSignalFrame.load p.memory p.context.rsp
  ({ p with
      context := { p.context with
        rip := frame.rip
        rsp := frame.rsp
        rax := frame.rax
        rdi := frame.rdi
        rsi := frame.rsi
        rdx := frame.rdx
        rcx := frame.rcx
        r8 := frame.r8
        r9 := frame.r9
        r10 := frame.r10
        r11 := frame.r11
        rflags := frame.rflags }
      signals := { p.signals with
        blocked := validSignalMask frame.blocked
        altStackFlags := frame.altStackFlags.setWidth 32 } },
    0)

/-- The words a call hands back through a user pointer, unless it is null. -/
def copyOut (ptr : Word) (size : Nat) (words : List Word) : Option Process :=
  if ptr = 0 then some p
  else if isValidUserPointer pagesValid ptr (BitVec.ofNat 64 size) then
    some { p with memory := storeWords p.memory ptr words }
  else none

def sysSigprocmask (how set oldset : Word) : Process × Word :=
  match copyOut pagesValid p oldset 8 [p.signals.blocked] with
  | none => (p, sysErrInvalid)
  | some p =>
    if set = 0 then (p, 0)
    else if !isValidUserPointer pagesValid set 8 then (p, sysErrInvalid)
    else
      let requested := validSignalMask (loadWord p.memory set)
      let withBlocked (blocked : Word) : Process × Word :=
        ({ p with signals := { p.signals with blocked } }, 0)
      if how = 0 then withBlocked (validSignalMask (p.signals.blocked ||| requested))
      else if how = 1 then withBlocked (validSignalMask (p.signals.blocked &&& ~~~requested))
      else if how = 2 then withBlocked requested
      else (p, sysErrInvalid)

def sysSigaction (sig act oldact : Word) : Process × Word :=
  if h : sig = 0 ∨ 64 ≤ sig.toNat ∨ (act = 0 ∧ oldact = 0) then (p, sysErrInvalid)
  else
    let sig : Sig := ⟨sig.toNat, by omega⟩
    match copyOut pagesValid p oldact 32 [p.signals.handlers sig, p.signals.masks sig,
      p.signals.flags sig, p.signals.restorers sig] with
    | none => (p, sysErrInvalid)
    | some p =>
      if act = 0 then (p, 0)
      else if sig = sigkill || !isValidUserPointer pagesValid act 32 then (p, sysErrInvalid)
      else
        ({ p with signals := { p.signals with
            handlers := update p.signals.handlers sig (loadWord p.memory act)
            masks := update p.signals.masks sig
              (validSignalMask (loadWord p.memory (act + 8)))
            flags := update p.signals.flags sig (loadWord p.memory (act + 16))
            restorers := update p.signals.restorers sig (loadWord p.memory (act + 24)) } },
          0)

/-- The last word of `SignalStackInfo` is `flags` and, above it, `reserved`. -/
def sysSigaltstack (stackPtr oldStackPtr : Word) : Process × Word :=
  match copyOut pagesValid p oldStackPtr 24 [p.signals.altStackSp, p.signals.altStackSize,
    p.signals.altStackFlags.setWidth 64] with
  | none => (p, sysErrInvalid)
  | some p =>
    if stackPtr = 0 then (p, 0)
    else if p.signals.altStackFlags &&& ssOnstack ≠ 0 then (p, sysErrInvalid)
    else if !isValidUserPointer pagesValid stackPtr 24 then (p, sysErrInvalid)
    else
      let sp := loadWord p.memory stackPtr
      let size := loadWord p.memory (stackPtr + 8)
      let flags : BitVec 32 := (loadWord p.memory (stackPtr + 16)).setWidth 32
      let withStack (altStackSp altStackSize : Word) (altStackFlags : BitVec 32) : Process × Word :=
        ({ p with signals := { p.signals with altStackSp, altStackSize, altStackFlags } }, 0)
      if flags &&& ~~~(ssOnstack ||| ssDisable) ≠ 0 ∨ flags &&& ssOnstack ≠ 0 then
        (p, sysErrInvalid)
      else if flags &&& ssDisable ≠ 0 then withStack 0 0 ssDisable
      else if sp = 0 ∨ size.toNat < 2048 ∨ !isValidUserPointer pagesValid sp size then
        (p, sysErrInvalid)
      else withStack sp size 0

/-- `sendSignal` from another thread or from the kernel. -/
def sendSignal (sig : Sig) : Process :=
  { p with signals := { p.signals with pending := p.signals.pending ||| bit sig } }

end

/-! ## The way back to user mode -/

/-- The words that the entry code pops before `sysret`, which loads RFLAGS from `r11` and the
instruction pointer from the slot of `rcx`. -/
def ProcessContext.syscallStack (c : ProcessContext) : List Word :=
  [c.r15, c.r14, c.r13, c.r12, c.r11, c.r10, c.r9, c.r8, c.rbp, c.rdi, c.rsi, c.rdx, c.rip, c.rbx,
    c.rax]

/-- The thread, the words on the kernel stack and the user's stack pointer; `none` when a signal
ends the thread and it does not go back. -/
def restoreSyscallStateLocked (p : Process) (validUserState : Bool) (stack : Nat → Word)
    (result userRSP : Word) : Option (Process × List Word × Word) :=
  let back (p : Process) := some (p, p.context.syscallStack, p.context.rsp)
  if validUserState then back p
  else
    let p := (handlePendingSignals { p with context := { p.context with
      r15 := stack 0
      r14 := stack 1
      r13 := stack 2
      r12 := stack 3
      r11 := stack 4
      r10 := stack 5
      r9 := stack 6
      r8 := stack 7
      rbp := stack 8
      rdi := stack 9
      rsi := stack 10
      rdx := stack 11
      rcx := stack 12
      rbx := stack 13
      rax := result
      rip := stack 12
      rflags := stack 4
      rsp := userRSP } }).1
    if p.terminated then none else back p

end InstantOS.Signal

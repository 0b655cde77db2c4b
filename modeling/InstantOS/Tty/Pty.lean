import InstantOS.Base.Window

/-!
# The pseudo terminal

`PtyDevice` of `cpu/tty/pty.cpp`: the two rings, the line discipline
(`inputChar` with translation, signals, line editing and the commit of a
line), the reads of the slave side and `pollSlave`.

A call that would sleep is an outcome of its own: `slaveRead` answers `blocks`
and changes nothing, which is the state in which the caller sleeps until some
other call changes the device or a signal sends it back with `-1`.  It goes on
as the `Reader` it was: the mode and `VMIN` are read once, before the sleep.
Waking sleepers changes no field of the device and is left out.
-/

namespace InstantOS.Tty

open InstantOS.Base

/-- `char`; comparisons are between bytes. -/
abbrev Byte := BitVec 8

def newline : Byte := 10
def carriageReturn : Byte := 13

def kPtyBufferSize : Nat := 8192
def kPtyLineBufferSize : Nat := 4096

/-! ## Rings -/

/-- `struct PtyRing`.  `head` is where the next byte goes, `tail` where the
next one comes from. -/
structure PtyRing where
  buffer : Nat → Byte
  head : Nat
  tail : Nat
  size : Nat
  size_le : size ≤ kPtyBufferSize
  head_eq : head = (tail + size) % kPtyBufferSize

/-- A ring after `memset`. -/
def PtyRing.empty : PtyRing :=
  { buffer := fun _ => 0, head := 0, tail := 0, size := 0
    size_le := by decide, head_eq := rfl }

/-- The bytes in a ring, the oldest first. -/
def PtyRing.bytes (ring : PtyRing) : List Byte :=
  window kPtyBufferSize ring.buffer ring.tail ring.size

def ringPush (ring : PtyRing) (c : Byte) : PtyRing :=
  if h : ring.size < kPtyBufferSize then
    { buffer := Function.update ring.buffer ring.head c
      head := (ring.head + 1) % kPtyBufferSize
      tail := ring.tail
      size := ring.size + 1
      size_le := h
      head_eq := by rw [ring.head_eq, Nat.mod_add_mod, Nat.add_assoc] }
  else ring

/-- The ring without its first byte. -/
def ringNext (ring : PtyRing) : PtyRing :=
  if h : 0 < ring.size then
    { buffer := ring.buffer
      head := ring.head
      tail := (ring.tail + 1) % kPtyBufferSize
      size := ring.size - 1
      size_le := (Nat.sub_le _ _).trans ring.size_le
      head_eq := by
        rw [ring.head_eq, Nat.mod_add_mod]
        congr 1
        omega }
  else ring

/-- `ringPop`: up to `max` bytes. -/
def ringPop : Nat → PtyRing → List Byte × PtyRing
  | 0, ring => ([], ring)
  | max + 1, ring =>
    if 0 < ring.size then
      let rest := ringPop max (ringNext ring)
      (ring.buffer (ring.tail % kPtyBufferSize) :: rest.1, rest.2)
    else ([], ring)

/-- The loop of a canonical read: up to `max` bytes, and no further than the
first newline. -/
def ringPopLine : Nat → PtyRing → List Byte × PtyRing
  | 0, ring => ([], ring)
  | max + 1, ring =>
    if 0 < ring.size then
      let c := ring.buffer (ring.tail % kPtyBufferSize)
      if c = newline then ([c], ringNext ring)
      else
        let rest := ringPopLine max (ringNext ring)
        (c :: rest.1, rest.2)
    else ([], ring)

def ringPushAll (ring : PtyRing) (line : List Byte) : PtyRing :=
  line.foldl ringPush ring

/-! ## The device -/

/-- `struct KernelTermios`: the flags and the control characters. -/
structure KernelTermios where
  c_iflag : BitVec 32
  c_oflag : BitVec 32
  c_lflag : BitVec 32
  c_cc : Nat → Byte

def vintr : Nat := 0
def vquit : Nat := 1
def verase : Nat := 2
def vkill : Nat := 3
def veof : Nat := 4
def vtime : Nat := 5
def vmin : Nat := 6
def vsusp : Nat := 10
def veol : Nat := 11

def icrnl : BitVec 32 := 0x100
def inlcr : BitVec 32 := 0x40
def igncr : BitVec 32 := 0x80
def ixon : BitVec 32 := 0x400
def istrip : BitVec 32 := 0x20
def opost : BitVec 32 := 0x1
def onlcr : BitVec 32 := 0x4
def ocrnl : BitVec 32 := 0x8
def isig : BitVec 32 := 0x1
def icanon : BitVec 32 := 0x2
def echo : BitVec 32 := 0x8
def echoe : BitVec 32 := 0x10
def echok : BitVec 32 := 0x20

/-- `flags & mask`, as a condition. -/
def flagSet (flags mask : BitVec 32) : Bool := flags &&& mask ≠ 0

def KernelTermios.canonical (t : KernelTermios) : Bool := flagSet t.c_lflag icanon

def defaultTermios : KernelTermios :=
  { c_iflag := icrnl ||| ixon
    c_oflag := opost ||| onlcr
    c_lflag := isig ||| icanon ||| echo ||| echoe ||| echok
    c_cc := fun i =>
      if i = vintr then 3 else if i = vquit then 28 else if i = verase then 127
      else if i = vkill then 21 else if i = veof then 4 else if i = vsusp then 26
      else if i = vmin then 1 else 0 }

/-- Signals sent to the foreground group. -/
inductive Signal
  | sigint | sigquit
deriving DecidableEq, Repr

/-- `PtyDevice`.  `line` is `lineBuffer` up to `lineLength`; `signals` records
what `signalForeground` was asked to send, the latest first. -/
structure PtyDevice where
  masterOpenCount : Nat
  termios : KernelTermios
  foregroundPgid : Nat
  inputRing : PtyRing
  outputRing : PtyRing
  line : List Byte
  canonicalSegments : Nat
  signals : List (Nat × Signal)

/-- The constructor. -/
def PtyDevice.new : PtyDevice :=
  { masterOpenCount := 0, termios := defaultTermios, foregroundPgid := 0
    inputRing := .empty, outputRing := .empty, line := [], canonicalSegments := 0
    signals := [] }

variable (p : PtyDevice) (t : KernelTermios)

def PtyDevice.masterOpen : Bool := 0 < p.masterOpenCount

def openMaster : PtyDevice :=
  { p with masterOpenCount := p.masterOpenCount + 1 }

def closeMaster : PtyDevice :=
  { p with masterOpenCount := p.masterOpenCount - 1 }

def signalForeground (signal : Signal) : PtyDevice :=
  if p.foregroundPgid = 0 then p
  else { p with signals := (p.foregroundPgid, signal) :: p.signals }

/-- `outputProcessChar`, on the output ring. -/
def outputProcessChar (out : PtyRing) (c : Byte) : PtyRing :=
  if flagSet t.c_oflag opost && (c = newline && flagSet t.c_oflag onlcr) then
    ringPush (ringPush out carriageReturn) newline
  else if flagSet t.c_oflag opost && (c = carriageReturn && flagSet t.c_oflag ocrnl) then
    ringPush out newline
  else ringPush out c

/-- `echoChar`, on the output ring: control characters appear as `^X`. -/
def echoChar (out : PtyRing) (c : Byte) : PtyRing :=
  if ¬ flagSet t.c_lflag echo then out
  else if c.toNat < 32 ∧ c ≠ newline ∧ c ≠ 9 ∧ c ≠ carriageReturn then
    outputProcessChar t (outputProcessChar t out 94) (64 + c)
  else outputProcessChar t out c

/-- Backspace, blank, backspace, when erased characters are echoed. -/
def echoErase (out : PtyRing) : PtyRing :=
  if flagSet t.c_lflag echoe then
    outputProcessChar t (outputProcessChar t (outputProcessChar t out 8) 32) 8
  else out

/-- The echo of `VKILL`: one erasure for each character of the line. -/
def echoKill (t : KernelTermios) : Nat → PtyRing → PtyRing
  | 0, out => out
  | n + 1, out => echoKill t n (echoErase t out)

/-- `commitCanonicalLine(false, 0)`, the only form that is called.  The results
of `ringPush` are ignored. -/
def commitCanonicalLine : PtyDevice :=
  { p with
    inputRing := ringPushAll p.inputRing p.line
    line := []
    canonicalSegments := p.canonicalSegments + 1 }

/-- The translation of `c_iflag`; `none` is a character that is ignored. -/
def translate (c : Byte) : Option Byte :=
  let stripped (c : Byte) : Byte := if flagSet t.c_iflag istrip then c &&& 0x7F else c
  if c = carriageReturn then
    if flagSet t.c_iflag igncr then none
    else if flagSet t.c_iflag icrnl then some (stripped newline)
    else some (stripped c)
  else if c = newline ∧ flagSet t.c_iflag inlcr then some (stripped carriageReturn)
  else some (stripped c)

/-- The character that generates a signal, if `ISIG` is on. -/
def signalOf (c : Byte) : Option Signal :=
  if flagSet t.c_lflag isig then
    if c = t.c_cc vintr then some .sigint
    else if c = t.c_cc vquit then some .sigquit
    else none
  else none

/-- `lineBuffer[lineLength++] = c`, while there is room. -/
def appendLine (line : List Byte) (c : Byte) : List Byte :=
  if line.length < kPtyLineBufferSize then line ++ [c] else line

/-- The end of a line: a newline, or `VEOL` if it is set. -/
def endsLine (c : Byte) : Bool :=
  c = newline || (t.c_cc veol ≠ 0 && c = t.c_cc veol)

/-- The canonical branch of `inputChar`. -/
def inputCanonical (c : Byte) : PtyDevice :=
  let t := p.termios
  if c = t.c_cc verase then
    if p.line = [] then p
    else { p with line := p.line.dropLast, outputRing := echoErase t p.outputRing }
  else if c = t.c_cc vkill then
    { p with line := [], outputRing := echoKill t p.line.length p.outputRing }
  else if c = t.c_cc veof then
    commitCanonicalLine { p with outputRing := echoChar t p.outputRing c }
  else if endsLine t c then
    commitCanonicalLine
      { p with line := appendLine p.line c, outputRing := echoChar t p.outputRing c }
  else if p.line.length < kPtyLineBufferSize then
    { p with line := p.line ++ [c], outputRing := echoChar t p.outputRing c }
  else p

def inputChar (c : Byte) : PtyDevice :=
  match translate p.termios c with
  | none => p
  | some c =>
    match signalOf p.termios c with
    | some signal =>
      let p := signalForeground p signal
      { p with outputRing := echoChar p.termios p.outputRing c }
    | none =>
      if p.termios.canonical then inputCanonical p c
      else
        { p with inputRing := ringPush p.inputRing c
                 outputRing := echoChar p.termios p.outputRing c }

def masterWrite (data : List Byte) : PtyDevice :=
  data.foldl inputChar p

/-- What a read comes to: it sleeps, or it returns these bytes. -/
inductive ReadResult
  | blocks
  | returned (bytes : List Byte)
deriving DecidableEq, Repr

/-- The locals of `slaveRead` that stay over a sleep. -/
structure Reader where
  canonical : Bool
  vmin : Byte
  size : Nat

/-- A read that starts now. -/
def Reader.new (size : Nat) : Reader := ⟨p.termios.canonical, p.termios.c_cc Tty.vmin, size⟩

/-- The loops of `slaveRead`, from its start or from a sleep on. -/
def readAs (r : Reader) : ReadResult × PtyDevice :=
  if r.canonical then
    if p.canonicalSegments = 0 then
      if p.masterOpen then (.blocks, p) else (.returned [], p)
    else
      let popped := ringPopLine r.size p.inputRing
      (.returned popped.1,
        { p with inputRing := popped.2, canonicalSegments := p.canonicalSegments - 1 })
  else if p.inputRing.size = 0 then
    if ¬ p.masterOpen then (.returned [], p)
    else if r.vmin = 0 then (.returned [], p)
    else (.blocks, p)
  else
    let popped := ringPop r.size p.inputRing
    (.returned popped.1, { p with inputRing := popped.2 })

/-- `slaveRead` into a buffer of `size` bytes. -/
def slaveRead (size : Nat) : ReadResult × PtyDevice :=
  if size = 0 then (.returned [], p) else readAs p (.new p size)

def setTermios : PtyDevice :=
  { p with termios :=
      if t.c_cc vmin = 0 ∧ t.c_cc vtime = 0 then
        { t with c_cc := Function.update t.c_cc vmin 1 }
      else t }

/-- The bits of `revents`. -/
structure PollEvents where
  pollIn : Bool
  pollOut : Bool
  pollHup : Bool
deriving DecidableEq, Repr

/-- `pollSlave`, for the requested `POLLIN` and `POLLOUT`. -/
def pollSlave (wantIn wantOut : Bool) : PollEvents :=
  let readable : Bool :=
    if p.termios.canonical then 0 < p.canonicalSegments else 0 < p.inputRing.size
  { pollIn := wantIn && (readable || !p.masterOpen)
    pollOut := wantOut && decide (p.outputRing.size < kPtyBufferSize)
    pollHup := !p.masterOpen }

end InstantOS.Tty

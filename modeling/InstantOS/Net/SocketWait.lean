import Mathlib.Tactic.Common

/-!
# Threads asleep on a socket

`waitForSocketEvent` and `waitForEvent` hold a reference to the socket while they sleep, and take
it for closed when theirs is the only one left.  The references of other threads asleep on it count
as well: of several only the last one learns of the closing.
-/

namespace InstantOS.SocketWait

inductive SyscallErrno
  | interrupted
  | again
  | badFile
deriving DecidableEq

/-- A `SocketObject` or a `UnixSocket`: its references, and whether it was destroyed. -/
structure Socket where
  refs : Nat
  destroyed : Bool

def retainSocketHandle (s : Socket) : Socket := { s with refs := s.refs + 1 }

def releaseSocketHandle (s : Socket) : Socket :=
  let refs := if s.refs > 0 then s.refs - 1 else s.refs
  { refs, destroyed := s.destroyed || refs == 0 }

/-- The two functions up to the sleep.  There is no deadline if it is zero. -/
def fallAsleep (signal : Bool) (now deadlineMs : Nat) (s : Socket) : Except SyscallErrno Socket :=
  if signal then .error .interrupted
  else if deadlineMs ≠ 0 ∧ deadlineMs ≤ now then .error .again
  else .ok (retainSocketHandle s)

/-- The two functions from the wake-up on.  The caller looks again at `none`, which is 0. -/
def wakeUp (signal : Bool) (s : Socket) : Option SyscallErrno × Socket :=
  let closed := s.refs = 1
  (if closed then some .badFile else if signal then some .interrupted else none,
    releaseSocketHandle s)

/-! ## Handles and threads -/

/-- A socket with the number of its handles and of the threads asleep on it. -/
structure System where
  socket : Socket
  handles : Nat
  asleep : Nat

inductive Event
  | duplicate
  | close
  | sleep (signal : Bool) (now deadlineMs : Nat)
  | wake (signal : Bool)

def step (s : System) : Event → System
  | .duplicate =>
    if s.handles = 0 then s
    else { s with socket := retainSocketHandle s.socket, handles := s.handles + 1 }
  | .close =>
    if s.handles = 0 then s
    else { s with socket := releaseSocketHandle s.socket, handles := s.handles - 1 }
  | .sleep signal now deadlineMs =>
    match fallAsleep signal now deadlineMs s.socket with
    | .error _ => s
    | .ok socket => { s with socket, asleep := s.asleep + 1 }
  | .wake signal =>
    if s.asleep = 0 then s
    else { s with socket := (wakeUp signal s.socket).2, asleep := s.asleep - 1 }

/-- A new socket, with its handle, after the events. -/
def run (events : List Event) : System := events.foldl step ⟨⟨1, false⟩, 1, 0⟩

/-- The threads wake up one after the other: what they return, and what is left. -/
def wakeUps : List Bool → Socket → List (Option SyscallErrno) × Socket
  | [], s => ([], s)
  | signal :: signals, s =>
    let (result, s) := wakeUp signal s
    let (results, s) := wakeUps signals s
    (result :: results, s)

/-- All threads return the bad-file error, and the socket goes with the last one. -/
def Ends (signals : List Bool) (s : Socket) : Prop :=
  (∀ result ∈ (wakeUps signals s).1, result = some .badFile) ∧ (wakeUps signals s).2.destroyed

/-- The socket has a reference for each of its holders, and is destroyed without any. -/
structure Counted (s : Socket) (holders : Nat) : Prop where
  refs : s.refs = holders
  last : holders = 0 → s.destroyed

theorem Counted.retain {s : Socket} {holders : Nat} (h : Counted s holders) :
    Counted (retainSocketHandle s) (holders + 1) where
  refs := congrArg (· + 1) h.refs
  last := nofun

theorem Counted.release {s : Socket} {holders : Nat} (h : Counted s (holders + 1)) :
    Counted (releaseSocketHandle s) holders where
  refs := by simp [releaseSocketHandle, h.refs]
  last hnone := by simp [releaseSocketHandle, h.refs, hnone]

def System.Counted (s : System) : Prop := SocketWait.Counted s.socket (s.handles + s.asleep)

theorem step_counted {s : System} (h : s.Counted) (event : Event) : (step s event).Counted := by
  fun_cases step s event with
  | case2 hopen => simpa only [System.Counted, Nat.add_right_comm] using h.retain
  | case4 hopen =>
    refine Counted.release ?_
    rwa [← Nat.add_right_comm, Nat.sub_add_cancel (Nat.pos_of_ne_zero hopen)]
  | case6 signal now deadlineMs socket hsleep =>
    have hsocket : retainSocketHandle s.socket = socket := by
      simp only [fallAsleep] at hsleep
      grind
    exact hsocket ▸ h.retain
  | case8 signal hasleep =>
    refine Counted.release ?_
    rwa [Nat.add_assoc, Nat.sub_add_cancel (Nat.pos_of_ne_zero hasleep)]
  | _ => exact h

theorem run_counted (events : List Event) : (run events).Counted :=
  List.foldlRecOn events step ⟨rfl, nofun⟩ fun _ h event _ => step_counted h event

/-- Once the last handle is closed, every thread asleep is told so just when there is one at
most: a first of several finds the references of the others. -/
theorem closed_wakes_iff {events : List Event} (hclosed : (run events).handles = 0)
    {signals : List Bool} (hall : signals.length = (run events).asleep) :
    Ends signals (run events).socket ↔ (run events).asleep ≤ 1 := by
  have hcounted := run_counted events
  rw [System.Counted, hclosed, Nat.zero_add, ← hall] at hcounted
  rw [← hall]
  match signals, hcounted with
  | [], hcounted => simp [Ends, wakeUps, hcounted.last]
  | [signal], hcounted => simp [Ends, wakeUps, wakeUp, hcounted.refs, hcounted.release.last]
  | signal :: other :: signals, hcounted =>
    have hfirst : (wakeUp signal (run events).socket).1 ≠ some .badFile := by
      cases signal <;> simp [wakeUp, hcounted.refs]
    simp [Ends, wakeUps, hfirst]

theorem closed_wakes_one : Ends [false] (run [.sleep false 0 0, .close]).socket :=
  (closed_wakes_iff rfl rfl).mpr (by decide)

/-- Of two threads asleep the first one looks again, at a socket without a handle. -/
theorem closed_wakes_two : ¬ ∀ (events : List Event) (signals : List Bool),
    (run events).handles = 0 → signals.length = (run events).asleep →
    Ends signals (run events).socket := fun h =>
  absurd ((h [.sleep false 0 0, .sleep false 0 0, .close] [false, false] rfl rfl).1 none
    (by decide)) nofun

end InstantOS.SocketWait

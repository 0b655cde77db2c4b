import InstantOS.Base.Window

/-!
# Pipes

A pipe is a ring of 4096 bytes with counts of its open ends.  `pipeRead` and `pipeWrite` hold the
big kernel lock except when they sleep, so a call is a sequence of turns, each from one sleep to
the next.  A read has done nothing before it sleeps; a write that sleeps keeps what it has stored.
-/

namespace InstantOS.Pipes

open Function List

open Base (window window_push window_succ)

/-! ## The ring -/

def kPipeBufferSize : Nat := 4096

def kPipeErrAgain : Int := -11

def kPipeErrPipe : Int := -29

/-- `PipeObject`, and whether it was deleted. -/
structure Pipe where
  buffer : Nat → UInt8
  head : Nat
  tail : Nat
  size : Nat
  refs : Nat
  readOpen : Nat
  writeOpen : Nat
  freed : Bool

/-- The bytes in the ring, the oldest first. -/
def Pipe.bytes (p : Pipe) : List UInt8 := window kPipeBufferSize p.buffer p.tail p.size

/-- The loop of `pipeRead`: up to `n` bytes are copied out. -/
def copyOut : Nat → Pipe → List UInt8 × Pipe
  | 0, p => ([], p)
  | n + 1, p =>
    if 0 < p.size then
      let rest := copyOut n
        { p with tail := (p.tail + 1) % kPipeBufferSize, size := p.size - 1 }
      (p.buffer p.tail :: rest.1, rest.2)
    else ([], p)

/-- The inner loop of `pipeWrite`: the bytes that found room. -/
def copyIn : List UInt8 → Pipe → List UInt8 × Pipe
  | [], p => ([], p)
  | byte :: data, p =>
    if p.size < kPipeBufferSize then
      let rest := copyIn data
        { p with
          buffer := update p.buffer p.head byte
          head := (p.head + 1) % kPipeBufferSize
          size := p.size + 1 }
      (byte :: rest.1, rest.2)
    else ([], p)

/-- The two kinds of endpoints. -/
inductive End
  | read
  | write
deriving DecidableEq

/-- An endpoint is made for the pipe. -/
def Pipe.opened (p : Pipe) : End → Pipe
  | .read => { p with refs := (p.refs + 1) % 2 ^ 32, readOpen := (p.readOpen + 1) % 2 ^ 32 }
  | .write => { p with refs := (p.refs + 1) % 2 ^ 32, writeOpen := (p.writeOpen + 1) % 2 ^ 32 }

/-- `pipeClose`; the subtractions stop at 0. -/
def Pipe.closed (p : Pipe) (kind : End) : Pipe :=
  let p := match kind with
    | .write => { p with writeOpen := p.writeOpen - 1 }
    | .read => { p with readOpen := p.readOpen - 1 }
  let refs := p.refs - 1
  { p with refs := refs, freed := p.freed || refs == 0 }

/-! ## The calls -/

/-- A write under way: its buffer, how much of it is written, and the bytes it put into the
ring. -/
structure Write where
  data : List UInt8
  written : Nat
  own : List UInt8

/-- What a call did: a read of `size` bytes returned with `left` in the ring, a write returned
after it stored `own`, or a call on an endpoint went to sleep.  The ends are those open then. -/
inductive Entry
  | read (size : Nat) (result : Int) (left : List UInt8) (writeEnds : Nat)
  | write (data own : List UInt8) (result : Int) (readEnds : Nat)
  | sleep (nonBlock : Bool)

/-- The pipe, its open endpoints, the writes that sleep, and what was done with it. -/
structure System where
  pipe : Pipe
  ends : End → Nat
  parked : List Write
  taken : List UInt8
  stored : List UInt8
  log : List Entry

namespace System

variable (s : System)

def retRead (size : Nat) (result : Int) : System :=
  { s with log := .read size result s.pipe.bytes (s.ends .write) :: s.log }

def retWrite (w : Write) (result : Int) : System :=
  { s with log := .write w.data w.own result (s.ends .read) :: s.log }

/-- A turn of `pipeRead`; `blocked` is the result of `blockCurrentForPipe`. -/
def readTurn (size : Nat) (nonBlock blocked : Bool) : System :=
  if size = 0 then s.retRead size 0
  else if s.pipe.size = 0 then
    if s.pipe.writeOpen = 0 then s.retRead size 0
    else if nonBlock then s.retRead size kPipeErrAgain
    else if blocked then { s with log := .sleep nonBlock :: s.log }
    else s.retRead size (-1)
  else
    let copied := copyOut size s.pipe
    { s with pipe := copied.2, taken := s.taken ++ copied.1 }.retRead size copied.1.length

/-- A write that can do no more returns what it has written, or the error. -/
def giveUp (w : Write) (error : Int) : System :=
  s.retWrite w (if 0 < w.written then w.written else error)

/-- The body of the loop that waits for room, with readers. -/
def stall (w : Write) (nonBlock blocked : Bool) : System :=
  if nonBlock then s.giveUp w kPipeErrAgain
  else if blocked then { s with parked := w :: s.parked, log := .sleep nonBlock :: s.log }
  else s.giveUp w (-1)

/-- A turn of `pipeWrite` from the loop that waits for room on: this is where it wakes, and it
does not look for readers when there is room. -/
def writeOn (w : Write) (nonBlock blocked : Bool) : System :=
  if s.pipe.size = kPipeBufferSize then
    if s.pipe.readOpen = 0 then s.giveUp w kPipeErrPipe else s.stall w nonBlock blocked
  else
    let copied := copyIn (w.data.drop w.written) s.pipe
    let s := { s with pipe := copied.2, stored := s.stored ++ copied.1 }
    let w := { w with written := w.written + copied.1.length, own := w.own ++ copied.1 }
    if w.written < w.data.length then
      -- The ring is full now, so the next turn of the outer loop ends here.
      if s.pipe.readOpen = 0 then s.giveUp w kPipeErrPipe else s.stall w nonBlock blocked
    else s.retWrite w w.written

/-- The first turn of `pipeWrite`. -/
def writeTurn (data : List UInt8) (nonBlock blocked : Bool) : System :=
  let w : Write := { data := data, written := 0, own := [] }
  if data = [] then s.retWrite w 0
  else if s.pipe.readOpen = 0 then s.giveUp w kPipeErrPipe
  else s.writeOn w nonBlock blocked

end System

/-- What can happen to a pipe.  A call keeps its endpoint open, and a turn takes the value that
`nonBlock` has then. -/
inductive Event
  | opens (kind : End)
  | closes (kind : End)
  | read (size : Nat) (nonBlock blocked : Bool)
  | write (data : List UInt8) (nonBlock blocked : Bool)
  | wake (place : Nat) (nonBlock blocked : Bool)

def System.step (s : System) : Event → System
  | .opens kind =>
    if s.pipe.freed then s
    else
      { s with
        pipe := s.pipe.opened kind
        ends := update s.ends kind (s.ends kind + 1) }
  | .closes kind =>
    if s.ends kind = 0 then s
    else
      { s with
        pipe := s.pipe.closed kind
        ends := update s.ends kind (s.ends kind - 1) }
  | .read size nonBlock blocked =>
    if s.ends .read = 0 then s else s.readTurn size nonBlock blocked
  | .write data nonBlock blocked =>
    if s.ends .write = 0 then s else s.writeTurn data nonBlock blocked
  | .wake place nonBlock blocked =>
    match s.parked[place]? with
    | none => s
    | some w =>
      if s.ends .write = 0 then s
      else { s with parked := s.parked.eraseIdx place }.writeOn w nonBlock blocked

/-- A FIFO before its first open has no end, an anonymous pipe starts with one of each kind. -/
def System.fresh (buffer : Nat → UInt8) (count : Nat) : System :=
  { pipe :=
      { buffer := buffer, head := 0, tail := 0, size := 0, refs := 2 * count, readOpen := count
        writeOpen := count, freed := false }
    ends := fun _ => count, parked := [], taken := [], stored := [], log := [] }

inductive Reached (ok : System → Event → Prop) : System → Prop
  | fifo (buffer : Nat → UInt8) : Reached ok (.fresh buffer 0)
  | anonymous (buffer : Nat → UInt8) : Reached ok (.fresh buffer 1)
  | step {s : System} (h : Reached ok s) (event : Event) (hok : ok s event) :
      Reached ok (s.step event)

/-- Fewer than 2^32 ends are open. -/
def Uncrowded (s : System) : Event → Prop
  | .opens _ => s.ends .read + s.ends .write + 1 < 2 ^ 32
  | _ => True

/-! ## What is promised -/

def Entry.Good : Entry → Prop
  | .read size result left writeEnds => size ≠ 0 → result = 0 → left = [] ∧ writeEnds = 0
  | .write data own result readEnds =>
    (∀ n : Nat, result = n → own = data.take n ∧ n ≤ data.length) ∧ (result < 0 → own = []) ∧
      (result = kPipeErrPipe → readEnds = 0)
  | .sleep nonBlock => nonBlock = false

structure Sound (s : System) : Prop where
  stream : s.taken ++ s.pipe.bytes = s.stored
  size : s.pipe.size ≤ kPipeBufferSize
  head : s.pipe.head = (s.pipe.tail + s.pipe.size) % kPipeBufferSize
  alive : 0 < s.ends .read + s.ends .write → s.pipe.freed = false
  calls : ∀ entry ∈ s.log, entry.Good

/-! ## Copying -/

structure Ring (p : Pipe) : Prop where
  size : p.size ≤ kPipeBufferSize
  head : p.head = (p.tail + p.size) % kPipeBufferSize
  tail : p.tail < kPipeBufferSize

/-- Copying leaves the counts. -/
structure Copied (p p' : Pipe) : Prop where
  ring : Ring p'
  refs : p'.refs = p.refs
  readOpen : p'.readOpen = p.readOpen
  writeOpen : p'.writeOpen = p.writeOpen
  freed : p'.freed = p.freed

variable {p : Pipe}

theorem copyOut_spec (n : Nat) (h : Ring p) :
    Copied p (copyOut n p).2 ∧ (copyOut n p).1 ++ (copyOut n p).2.bytes = p.bytes := by
  induction n generalizing p with
  | zero => exact ⟨⟨h, rfl, rfl, rfl, rfl⟩, rfl⟩
  | succ n ih =>
    unfold copyOut
    split
    · have hsize := h.size
      have hnext : Ring { p with tail := (p.tail + 1) % kPipeBufferSize, size := p.size - 1 } := by
        refine ⟨by dsimp only; omega, ?_, Nat.mod_lt _ (by decide)⟩
        dsimp only
        rw [h.head, Nat.mod_add_mod]
        congr 1
        omega
      obtain ⟨hcopied, hbytes⟩ := ih hnext
      refine ⟨{ hcopied with }, ?_⟩
      rw [cons_append, hbytes]
      obtain ⟨count, hcount⟩ : ∃ count, p.size = count + 1 := ⟨p.size - 1, by omega⟩
      rw [Pipe.bytes, Pipe.bytes, hcount, window_succ, Nat.mod_eq_of_lt h.tail]
      rfl
    · exact ⟨⟨h, rfl, rfl, rfl, rfl⟩, rfl⟩

theorem copyOut_pos {n : Nat} (hn : n ≠ 0) (hsize : p.size ≠ 0) : (copyOut n p).1.length ≠ 0 := by
  obtain ⟨n, rfl⟩ := Nat.exists_eq_succ_of_ne_zero hn
  unfold copyOut
  rw [if_pos (Nat.pos_of_ne_zero hsize)]
  exact Nat.succ_ne_zero _

theorem copyIn_spec (data : List UInt8) (h : Ring p) :
    Copied p (copyIn data p).2 ∧ (copyIn data p).2.bytes = p.bytes ++ (copyIn data p).1 ∧
      (copyIn data p).1 = data.take (copyIn data p).1.length := by
  induction data generalizing p with
  | nil => exact ⟨⟨h, rfl, rfl, rfl, rfl⟩, (append_nil _).symm, rfl⟩
  | cons byte data ih =>
    unfold copyIn
    split
    · rename_i hroom
      have hnext : Ring
          { p with
            buffer := update p.buffer p.head byte
            head := (p.head + 1) % kPipeBufferSize
            size := p.size + 1 } := by
        refine ⟨hroom, ?_, h.tail⟩
        rw [h.head, Nat.mod_add_mod, Nat.add_assoc]
      obtain ⟨hcopied, hbytes, htake⟩ := ih hnext
      refine ⟨{ hcopied with }, hbytes.trans ?_, by rw [length_cons, take_succ_cons, ← htake]⟩
      rw [Pipe.bytes, h.head, window_push _ _ _ hroom, append_assoc]
      rfl
    · exact ⟨⟨h, rfl, rfl, rfl, rfl⟩, (append_nil _).symm, rfl⟩

/-! ## The invariant -/

/-- A write has stored what it has counted. -/
def Write.Fits (w : Write) : Prop := w.own = w.data.take w.written ∧ w.written ≤ w.data.length

structure Inv (s : System) : Prop extends Sound s where
  tail : s.pipe.tail < kPipeBufferSize
  refs : s.pipe.refs = s.ends .read + s.ends .write
  readOpen : s.pipe.readOpen = s.ends .read
  writeOpen : s.pipe.writeOpen = s.ends .write
  few : s.ends .read + s.ends .write < 2 ^ 32
  parked : ∀ w ∈ s.parked, w.Fits

namespace Inv

variable {s : System} {w : Write} {nonBlock blocked : Bool}

section

variable (h : Inv s)

include h

theorem note {entry : Entry} (hgood : entry.Good) : Inv { s with log := entry :: s.log } :=
  { h with calls := forall_mem_cons.2 ⟨hgood, h.calls⟩ }

theorem copied (hp : Copied s.pipe p) {taken stored : List UInt8}
    (hstream : taken ++ p.bytes = stored) :
    Inv { s with pipe := p, taken := taken, stored := stored } :=
  { hp.ring, h with
    stream := hstream
    alive := fun hpos => hp.freed.trans (h.alive hpos)
    refs := hp.refs.trans h.refs
    readOpen := hp.readOpen.trans h.readOpen
    writeOpen := hp.writeOpen.trans h.writeOpen }

theorem ring : Ring s.pipe := { h with }

theorem readTurn (size : Nat) : Inv (s.readTurn size nonBlock blocked) := by
  unfold System.readTurn
  split
  · rename_i hzero
    exact h.note fun hne => absurd hzero hne
  split
  · rename_i hempty
    split
    · rename_i hnone
      refine h.note fun _ _ => ⟨?_, h.writeOpen.symm.trans hnone⟩
      rw [Pipe.bytes, hempty]
      rfl
    · split
      · exact h.note fun _ hresult => absurd hresult (by decide)
      split
      · rename_i hblock _
        exact h.note (Bool.eq_false_iff.2 hblock)
      · exact h.note fun _ hresult => absurd hresult (by decide)
  · rename_i hfull
    obtain ⟨hcopied, hbytes⟩ := copyOut_spec size h.ring
    refine (h.copied hcopied ?_).note fun hne hresult => ?_
    · rw [append_assoc, hbytes]
      exact h.stream
    · exact absurd (Int.ofNat_eq_zero.1 hresult) (copyOut_pos hne hfull)

/-- A write returns the number of bytes it stored. -/
theorem retWritten (hw : w.Fits) : Inv (s.retWrite w w.written) := by
  refine h.note ⟨fun n hn => ?_, fun hneg => ?_, fun herror => ?_⟩
  · rw [← Int.ofNat_inj.1 hn]
    exact hw
  · exact absurd hneg (Int.not_lt.2 (Int.natCast_nonneg _))
  · exact absurd herror (by unfold kPipeErrPipe; omega)

theorem giveUp (hw : w.Fits) {error : Int} (hneg : error < 0)
    (hbroken : error = kPipeErrPipe → s.ends .read = 0) : Inv (s.giveUp w error) := by
  unfold System.giveUp
  split
  · exact h.retWritten hw
  rename_i hnone
  refine h.note ⟨fun n hn => by omega, fun _ => ?_, hbroken⟩
  rw [hw.1, Nat.eq_zero_of_not_pos hnone]
  rfl

theorem stall (hw : w.Fits) : Inv (s.stall w nonBlock blocked) := by
  unfold System.stall
  split
  · exact h.giveUp hw (by decide) nofun
  split
  · rename_i hblock _
    have hslept : Inv { s with log := .sleep nonBlock :: s.log } :=
      h.note (Bool.eq_false_iff.2 hblock)
    exact { hslept with parked := forall_mem_cons.2 ⟨hw, h.parked⟩ }
  · exact h.giveUp hw (by decide) nofun

/-- A write without room looks for readers and waits. -/
theorem noRoom (hw : w.Fits) :
    Inv (if s.pipe.readOpen = 0 then s.giveUp w kPipeErrPipe else s.stall w nonBlock blocked) := by
  split
  · rename_i hnone
    exact h.giveUp hw (by decide) fun _ => h.readOpen.symm.trans hnone
  · exact h.stall hw

theorem writeOn (hw : w.Fits) : Inv (s.writeOn w nonBlock blocked) := by
  unfold System.writeOn
  split
  · exact h.noRoom hw
  obtain ⟨hcopied, hbytes, htake⟩ := copyIn_spec (w.data.drop w.written) h.ring
  have hnow : Inv { s with
      pipe := (copyIn (w.data.drop w.written) s.pipe).2
      stored := s.stored ++ (copyIn (w.data.drop w.written) s.pipe).1 } := by
    refine h.copied hcopied ?_
    rw [hbytes, ← append_assoc, h.stream]
  have hlength := congrArg length htake
  rw [length_take, length_drop] at hlength
  have hfits : Write.Fits
      { w with
        written := w.written + (copyIn (w.data.drop w.written) s.pipe).1.length
        own := w.own ++ (copyIn (w.data.drop w.written) s.pipe).1 } := by
    have hwritten := hw.2
    refine ⟨?_, by dsimp only; omega⟩
    rw [hw.1, take_add, ← htake]
  dsimp only
  split
  · exact hnow.noRoom hfits
  · exact hnow.retWritten hfits

theorem writeTurn (data : List UInt8) : Inv (s.writeTurn data nonBlock blocked) := by
  have hnew : Write.Fits { data := data, written := 0, own := [] } := ⟨rfl, Nat.zero_le _⟩
  unfold System.writeTurn
  split
  · exact h.retWritten hnew
  split
  · rename_i hnone
    exact h.giveUp hnew (by decide) fun _ => h.readOpen.symm.trans hnone
  · exact h.writeOn hnew

theorem opens (kind : End) (hfreed : s.pipe.freed = false)
    (hfew : s.ends .read + s.ends .write + 1 < 2 ^ 32) :
    Inv { s with
      pipe := s.pipe.opened kind
      ends := update s.ends kind (s.ends kind + 1) } := by
  have hrefs := h.refs
  have hread := h.readOpen
  have hwrite := h.writeOpen
  cases kind with
  | read =>
    refine { h with alive := fun _ => hfreed, refs := ?_, readOpen := ?_, few := ?_ } <;>
      simp [Pipe.opened] <;> omega
  | write =>
    refine { h with alive := fun _ => hfreed, refs := ?_, writeOpen := ?_, few := ?_ } <;>
      simp [Pipe.opened] <;> omega

theorem closes (kind : End) (hopen : s.ends kind ≠ 0) : Inv { s with
      pipe := s.pipe.closed kind
      ends := update s.ends kind (s.ends kind - 1) } := by
  have hrefs := h.refs
  have hread := h.readOpen
  have hwrite := h.writeOpen
  have hfew := h.few
  have hfreed : s.pipe.freed = false := h.alive (by cases kind <;> omega)
  cases kind with
  | read =>
    refine { h with alive := fun hpos => ?_, refs := ?_, readOpen := ?_, few := ?_ } <;>
      simp [Pipe.closed, hfreed] at * <;> omega
  | write =>
    refine { h with alive := fun hpos => ?_, refs := ?_, writeOpen := ?_, few := ?_ } <;>
      simp [Pipe.closed, hfreed] at * <;> omega

theorem step {event : Event} (hok : Uncrowded s event) : Inv (s.step event) := by
  cases event with
  | opens kind =>
    dsimp only [System.step]
    split
    · exact h
    · rename_i hfreed
      exact h.opens kind (Bool.eq_false_iff.2 hfreed) hok
  | closes kind =>
    dsimp only [System.step]
    split
    · exact h
    · rename_i hopen
      exact h.closes kind hopen
  | read size nonBlock blocked =>
    dsimp only [System.step]
    split
    · exact h
    · exact h.readTurn size
  | write data nonBlock blocked =>
    dsimp only [System.step]
    split
    · exact h
    · exact h.writeTurn data
  | wake place nonBlock blocked =>
    dsimp only [System.step]
    split
    · exact h
    rename_i w hw
    split
    · exact h
    · have hrest : Inv { s with parked := s.parked.eraseIdx place } :=
        { h with parked := fun w' hw' => h.parked w' (mem_of_mem_eraseIdx hw') }
      exact hrest.writeOn (h.parked w (mem_of_getElem? hw))

end

theorem fresh (buffer : Nat → UInt8) {count : Nat} (hcount : count ≤ 1) :
    Inv (.fresh buffer count) :=
  { stream := rfl
    size := Nat.zero_le _
    head := rfl
    alive := fun _ => rfl
    calls := nofun
    tail := (by decide : 0 < kPipeBufferSize)
    refs := by simp [System.fresh]; omega
    readOpen := rfl
    writeOpen := rfl
    few := by simp [System.fresh]; omega
    parked := nofun }

end Inv

/-- **Pipes are byte streams, in every interleaving with fewer than 2^32 open ends.** -/
theorem pipe_streams {s : System} (h : Reached Uncrowded s) : Sound s := by
  suffices hinv : Inv s from hinv.toSound
  induction h with
  | fifo buffer | anonymous buffer => exact .fresh buffer (by decide)
  | step _ event hok ih => exact ih.step hok

/-- Three bytes are written and two are read. -/
def someRead : System :=
  ((System.fresh (fun _ => 0) 1).step (.write [1, 2, 3] false true)).step (.read 2 true true)

theorem pipe_streams_someRead :
    someRead.taken = [1, 2] ∧ someRead.pipe.bytes = [3] ∧ Sound someRead :=
  ⟨by decide +kernel, by decide +kernel,
    pipe_streams (((Reached.anonymous _).step (.write [1, 2, 3] false true) trivial).step
      (.read 2 true true) trivial)⟩

/-- A FIFO with a reader and `n` writers. -/
def writers : Nat → System
  | 0 => (System.fresh (fun _ => 0) 0).step (.opens .read)
  | n + 1 => (writers n).step (.opens .write)

theorem writers_reached (n : Nat) : Reached (fun _ _ => True) (writers n) := by
  induction n with
  | zero => exact .step (.fifo _) _ trivial
  | succ n ih => exact ih.step _ trivial

theorem writers_pipe (n : Nat) : (writers n).pipe.freed = false ∧ (writers n).pipe.size = 0 ∧
    (writers n).pipe.writeOpen = n % 2 ^ 32 ∧ (writers n).ends .read = 1 ∧
    (writers n).ends .write = n := by
  induction n with
  | zero => exact ⟨rfl, rfl, rfl, rfl, rfl⟩
  | succ n ih =>
    obtain ⟨hfreed, hsize, hopen, hread, hwrite⟩ := ih
    dsimp only [writers, System.step]
    rw [hfreed]
    refine ⟨hfreed, hsize, ?_, ?_, ?_⟩
    · change ((writers n).pipe.writeOpen + 1) % 2 ^ 32 = (n + 1) % 2 ^ 32
      rw [hopen, Nat.mod_add_mod]
    · exact hread
    · exact congrArg (· + 1) hwrite

/-- With 2^32 writers a read of an empty pipe is at the end of the file. -/
theorem end_of_file_with_writers : ¬ ∀ s, Reached (fun _ _ => True) s → Sound s := by
  intro hall
  obtain ⟨-, hsize, hopen, hread, hwrite⟩ := writers_pipe (2 ^ 32)
  have hsound := hall _ ((writers_reached (2 ^ 32)).step (.read 1 false true) trivial)
  have hstep : ((writers (2 ^ 32)).step (.read 1 false true)).log =
      .read 1 0 (writers (2 ^ 32)).pipe.bytes (2 ^ 32) :: (writers (2 ^ 32)).log := by
    dsimp only [System.step]
    rw [hread, if_neg Nat.one_ne_zero, System.readTurn, if_neg Nat.one_ne_zero, if_pos hsize,
      if_pos (hopen.trans (Nat.mod_self _)), System.retRead, hwrite]
  have hgood := hsound.calls _ (hstep ▸ mem_cons_self)
  exact absurd (hgood Nat.one_ne_zero rfl).2 (by decide)

end InstantOS.Pipes

import InstantOS.Fs.Pipe
import Mathlib.Data.List.FinRange

/-!
# The ends of a FIFO

`openFifo` counts an open for each direction it asks for, `pipeClose` takes back one by the flag
`writeEnd` of the endpoint.  For read-only and write-only endpoints the two agree.  An endpoint
for both has no `writeEnd`: it cannot store, and its write count is never taken back.  The opens
of one FIFO find its pipe in the table `gFifos`, from the first open to the last close.
-/

namespace InstantOS.Pipes

open Function List

/-- The access mode of an open; the value 3 opens like `readOnly`. -/
inductive Access
  | readOnly
  | writeOnly
  | readWrite
deriving DecidableEq

def Access.wantRead (access : Access) : Bool := access ≠ .writeOnly

def Access.wantWrite (access : Access) : Bool := access ≠ .readOnly

def Access.writeEnd (access : Access) : Bool := access.wantWrite && !access.wantRead

/-! ## One pipe -/

/-- A pipe and its endpoints.  The descriptors that share an endpoint close it with the last of
them. -/
structure Fifo where
  pipe : Pipe
  ends : Access → Nat

namespace Fifo

variable (f : Fifo)

def readers : Nat := f.ends .readOnly + f.ends .readWrite

def writers : Nat := f.ends .writeOnly + f.ends .readWrite

def endpoints : Nat := f.readers + f.ends .writeOnly

/-- `openFifo` counts the endpoint, before it waits for the other side. -/
def opened (access : Access) : Fifo :=
  { pipe := { f.pipe with
      refs := (f.pipe.refs + 1) % 2 ^ 32
      readOpen := (f.pipe.readOpen + access.wantRead.toNat) % 2 ^ 32
      writeOpen := (f.pipe.writeOpen + access.wantWrite.toNat) % 2 ^ 32 }
    ends := update f.ends access (f.ends access + 1) }

/-- `pipeClose` takes the endpoint back. -/
def closed (access : Access) : Fifo :=
  { pipe := f.pipe.closed (if access.writeEnd then .write else .read)
    ends := update f.ends access (f.ends access - 1) }

/-- A new FIFO, or an anonymous pipe after `sys_pipe2`. -/
def fresh (anonymous : Bool) : Fifo where
  pipe := (System.fresh (fun _ => 0) anonymous.toNat).pipe
  ends
    | .readWrite => 0
    | _ => anonymous.toNat

/-- The pipe with nothing done on it yet. -/
def system : System :=
  { pipe := f.pipe
    ends := fun
      | .read => f.readers
      | .write => f.writers
    parked := [], taken := [], stored := [], log := [] }

/-- A turn of `pipeRead` on an endpoint. -/
def pipeRead (access : Access) (size : Nat) (nonBlock blocked : Bool) : System :=
  if access.writeEnd then f.system.retRead size (-1) else f.system.readTurn size nonBlock blocked

/-- The first turn of `pipeWrite` on an endpoint. -/
def pipeWrite (access : Access) (data : List UInt8) (nonBlock blocked : Bool) : System :=
  if access.writeEnd then f.system.writeTurn data nonBlock blocked
  else f.system.retWrite { data := data, written := 0, own := [] } (-1)

/-- The read returned `0`. -/
def EndOfFile (s : System) : Prop :=
  ∃ size left writeEnds, s.log.head? = some (.read size 0 left writeEnds)

structure Counts : Prop where
  refs : f.pipe.refs = f.endpoints
  readOpen : f.pipe.readOpen = f.readers
  writeOpen : f.pipe.writeOpen = f.writers

/-- The counts are right; a read is at the end of the file when it should be; and a write that may
wait stores bytes, or waits for room. -/
structure Right : Prop extends Counts f where
  atEnd : ∀ (access : Access) (size : Nat) (nonBlock blocked : Bool), access.wantRead → size ≠ 0 →
    (EndOfFile (f.pipeRead access size nonBlock blocked) ↔ f.pipe.size = 0 ∧ f.writers = 0)
  stores : ∀ (access : Access) (data : List UInt8), access.wantWrite → f.ends access ≠ 0 →
    f.readers ≠ 0 → data ≠ [] → (f.pipeWrite access data false true).stored ≠ [] ∨
      f.pipe.size = kPipeBufferSize ∧ (f.pipeWrite access data false true).parked ≠ []

/-- No endpoint is open for both directions, and fewer than 2^32 are open. -/
def Plain : Prop := f.ends .readWrite = 0 ∧ f.endpoints < 2 ^ 32
deriving Decidable

/-- What a history of plain opens keeps. -/
structure Counted : Prop extends Counts f where
  plain : f.Plain
  alive : f.endpoints ≠ 0 → f.pipe.freed = false
  ring : Ring f.pipe

end Fifo

/-! ## The table -/

def kMaxFifos : Nat := 32

/-- The table of FIFOs, keyed by file system and inode, and all pipes by the order in which they
were created. -/
structure Registry (κ : Type) where
  gFifos : Fin kMaxFifos → Option (κ × Nat)
  fifos : Nat → Fifo
  created : Nat

/-- The calls; duplications and forks share an endpoint and do not touch its pipe.  `resume` is
the next turn of a write that slept. -/
inductive Call (κ : Type)
  | pipe2
  | openFifo (key : κ) (access : Access) (pipe endpoint : Bool)
  | pipeClose (id : Nat) (access : Access)
  | read (id : Nat) (access : Access) (size : Nat) (nonBlock blocked : Bool)
  | write (id : Nat) (access : Access) (data : List UInt8) (nonBlock blocked : Bool)
  | resume (id : Nat) (w : Write) (nonBlock blocked : Bool)

namespace Registry

variable {κ : Type} [DecidableEq κ]

def boot : Registry κ := { gFifos := fun _ => none, fifos := fun _ => .fresh false, created := 0 }

variable (r : Registry κ)

def fifoLookup (key : κ) : Option Nat :=
  (finRange kMaxFifos).findSome? fun slot =>
    (r.gFifos slot).bind fun entry => if entry.1 = key then some entry.2 else none

/-- `fifoGetOrCreate`; `memory` says whether there is any for a new pipe. -/
def fifoGetOrCreate (key : κ) (memory : Bool) : Option Nat × Registry κ :=
  match r.fifoLookup key with
  | some id => (some id, r)
  | none =>
    match (finRange kMaxFifos).find? fun slot => (r.gFifos slot).isNone with
    | none => (none, r)
    | some slot =>
      if memory then
        (some r.created,
          { gFifos := update r.gFifos slot (some (key, r.created))
            fifos := update r.fifos r.created (.fresh false)
            created := r.created + 1 })
      else (none, r)

def fifoForget (id : Nat) : Fin kMaxFifos → Option (κ × Nat) := fun slot =>
  if (r.gFifos slot).map Prod.snd = some id then none else r.gFifos slot

/-- An endpoint is made for the pipe. -/
def opened (id : Nat) (access : Access) : Registry κ :=
  { r with fifos := update r.fifos id ((r.fifos id).opened access) }

/-- `openFifo`; a call that gets no memory for its endpoint leaves a pipe it has created. -/
def openFifo (key : κ) (access : Access) (pipe endpoint : Bool) : Registry κ :=
  match r.fifoGetOrCreate key pipe with
  | (none, r) => r
  | (some id, r) => if endpoint then r.opened id access else r

def pipeClose (id : Nat) (access : Access) : Registry κ :=
  let f := (r.fifos id).closed access
  { r with
    gFifos := if f.pipe.refs = 0 then r.fifoForget id else r.gFifos
    fifos := update r.fifos id f }

/-- A turn of a call on an open endpoint leaves the pipe of `s`. -/
def turn (id : Nat) (access : Access) (s : System) : Registry κ :=
  if (r.fifos id).ends access = 0 then r
  else { r with fifos := update r.fifos id { r.fifos id with pipe := s.pipe } }

def step : Call κ → Registry κ
  | .pipe2 =>
    { r with fifos := update r.fifos r.created (.fresh true), created := r.created + 1 }
  | .openFifo key access pipe endpoint => r.openFifo key access pipe endpoint
  | .pipeClose id access => if (r.fifos id).ends access = 0 then r else r.pipeClose id access
  | .read id access size nonBlock blocked =>
    r.turn id access ((r.fifos id).pipeRead access size nonBlock blocked)
  | .write id access data nonBlock blocked =>
    r.turn id access ((r.fifos id).pipeWrite access data nonBlock blocked)
  | .resume id w nonBlock blocked =>
    r.turn id .writeOnly ((r.fifos id).system.writeOn w nonBlock blocked)

inductive Reached (ok : Registry κ → Prop) : Registry κ → Prop
  | boot : Reached ok boot
  | step {r : Registry κ} (h : Reached ok r) (call : Call κ) (hok : ok (r.step call)) :
      Reached ok (r.step call)

/-- The call closes the last endpoint of the pipe. -/
def LastClose (call : Call κ) (id : Nat) : Prop :=
  (r.fifos id).endpoints = 1 ∧ ∃ access, (r.fifos id).ends access ≠ 0 ∧ call = .pipeClose id access

/-- Every pipe is right, and a call frees a pipe and its table entry exactly if it is the last
close. -/
structure Right : Prop where
  fifos : ∀ id, (r.fifos id).Right
  freed : ∀ call id, (r.fifos id).pipe.freed = false →
    (((r.step call).fifos id).pipe.freed = true ↔ r.LastClose call id)
  table : ∀ call slot key id, r.gFifos slot = some (key, id) →
    (r.LastClose call id → (r.step call).gFifos slot = none) ∧
      (¬ r.LastClose call id → (r.step call).gFifos slot = some (key, id))

def Plain : Prop := ∀ id < r.created, (r.fifos id).Plain

/-- The table names pipes that were created and not freed. -/
structure Counted : Prop where
  fifos : ∀ id, (r.fifos id).Counted
  named : ∀ slot key id, r.gFifos slot = some (key, id) →
    id < r.created ∧ (r.fifos id).pipe.freed = false

end Registry

/-! ## The counts of one pipe -/

namespace Fifo

variable {f : Fifo} {access : Access}

theorem endpoints_opened : (f.opened access).endpoints = f.endpoints + 1 := by
  cases access <;> simp [opened, endpoints, readers] <;> omega

theorem readers_opened : (f.opened access).readers = f.readers + access.wantRead.toNat := by
  cases access <;> simp [opened, readers, Access.wantRead] <;> omega

theorem writers_opened : (f.opened access).writers = f.writers + access.wantWrite.toNat := by
  cases access <;> simp [opened, writers, Access.wantWrite] <;> omega

/-- A read-only or write-only endpoint is closed for the direction it was opened for. -/
theorem closed_ends (hmode : access ≠ .readWrite) (hopen : f.ends access ≠ 0) :
    (f.closed access).endpoints = f.endpoints - 1 ∧
      (f.closed access).readers = f.readers - access.wantRead.toNat ∧
      (f.closed access).writers = f.writers - access.wantWrite.toNat := by
  cases access with
  | readWrite => exact absurd rfl hmode
  | readOnly | writeOnly =>
    simp only [closed, endpoints, readers, writers, Access.wantRead, Access.wantWrite, ne_eq,
      update_self, update_of_ne, reduceCtorEq, not_true, not_false_eq_true, decide_true,
      decide_false, Bool.toNat_true, Bool.toNat_false]
    omega

theorem closed_pipe (hmode : access ≠ .readWrite) :
    (f.closed access).pipe = { f.pipe with
      refs := f.pipe.refs - 1
      readOpen := f.pipe.readOpen - access.wantRead.toNat
      writeOpen := f.pipe.writeOpen - access.wantWrite.toNat
      freed := f.pipe.freed || f.pipe.refs - 1 == 0 } := by
  cases access with
  | readWrite => exact absurd rfl hmode
  | readOnly | writeOnly => rfl

theorem readers_le : f.readers ≤ f.endpoints := Nat.le_add_right _ _

theorem writers_le : f.writers ≤ f.endpoints := by
  unfold writers endpoints readers
  omega

theorem endpoints_ne (hopen : f.ends access ≠ 0) : f.endpoints ≠ 0 := by
  unfold endpoints readers
  cases access <;> omega

namespace Counted

variable (h : f.Counted)

include h

theorem opened (hpipe : f.pipe.freed = false) (hplain : (f.opened access).Plain) :
    (f.opened access).Counted := by
  have hfew := hplain.2
  refine ⟨⟨?_, ?_, ?_⟩, hplain, fun _ => hpipe, { h.ring with }⟩
  · rw [endpoints_opened] at hfew ⊢
    rw [← h.refs] at hfew ⊢
    exact Nat.mod_eq_of_lt hfew
  · have hle := hfew.trans_le' readers_le
    rw [readers_opened, ← h.readOpen] at hle ⊢
    exact Nat.mod_eq_of_lt hle
  · have hle := hfew.trans_le' writers_le
    rw [writers_opened, ← h.writeOpen] at hle ⊢
    exact Nat.mod_eq_of_lt hle

theorem mode (hopen : f.ends access ≠ 0) : access ≠ .readWrite :=
  fun hmode => hopen (hmode ▸ h.plain.1)

/-- Closing the last endpoint frees the pipe. -/
theorem refs_closed (hopen : f.ends access ≠ 0) :
    (f.closed access).pipe.refs = 0 ↔ f.endpoints = 1 := by
  have hne := endpoints_ne hopen
  rw [closed_pipe (h.mode hopen), h.refs]
  dsimp only
  omega

theorem freed_closed (hopen : f.ends access ≠ 0) :
    (f.closed access).pipe.freed = true ↔ f.endpoints = 1 := by
  rw [← h.refs_closed hopen, closed_pipe (h.mode hopen), h.alive (endpoints_ne hopen)]
  exact beq_iff_eq

theorem closed (hopen : f.ends access ≠ 0) : (f.closed access).Counted := by
  have hmode := h.mode hopen
  obtain ⟨hends, hreaders, hwriters⟩ := closed_ends hmode hopen
  have hboth : (f.closed access).ends .readWrite = 0 :=
    (update_of_ne hmode.symm _ _).trans h.plain.1
  refine ⟨⟨?_, ?_, ?_⟩, ⟨hboth, ?_⟩, fun hne => ?_, ?_⟩
  · rw [closed_pipe hmode, hends, h.refs]
  · rw [closed_pipe hmode, hreaders, h.readOpen]
  · rw [closed_pipe hmode, hwriters, h.writeOpen]
  · exact hends ▸ (Nat.sub_le _ _).trans_lt h.plain.2
  · rw [Bool.eq_false_iff, Ne, h.freed_closed hopen]
    omega
  · rw [closed_pipe hmode]
    exact { h.ring with }

/-- Copying in or out leaves the counts. -/
theorem copied {p : Pipe} (hp : Copied f.pipe p) : ({ f with pipe := p } : Fifo).Counted :=
  { plain := h.plain
    refs := hp.refs.trans h.refs
    readOpen := hp.readOpen.trans h.readOpen
    writeOpen := hp.writeOpen.trans h.writeOpen
    alive := fun hne => hp.freed.trans (h.alive hne)
    ring := hp.ring }

theorem atEnd {size : Nat} {nonBlock blocked : Bool} (hread : access.wantRead) (hsize : size ≠ 0) :
    EndOfFile (f.pipeRead access size nonBlock blocked) ↔ f.pipe.size = 0 ∧ f.writers = 0 := by
  have hend : access.writeEnd = false := by simp [Access.writeEnd, hread]
  rw [← h.writeOpen, pipeRead, if_neg (hend ▸ Bool.false_ne_true), System.readTurn, if_neg hsize]
  by_cases hempty : f.pipe.size = 0
  · by_cases hnone : f.pipe.writeOpen = 0
    · simp [system, hempty, hnone, EndOfFile, System.retRead]
    · cases nonBlock <;> cases blocked <;>
        simp [system, hempty, hnone, EndOfFile, System.retRead, kPipeErrAgain]
  · have hsome := copyOut_pos hsize hempty
    simp_all [system, EndOfFile, System.retRead]

theorem stores {data : List UInt8} (hwrite : access.wantWrite) (hopen : f.ends access ≠ 0)
    (hreader : f.readers ≠ 0) (hdata : data ≠ []) :
    (f.pipeWrite access data false true).stored ≠ [] ∨
      f.pipe.size = kPipeBufferSize ∧ (f.pipeWrite access data false true).parked ≠ [] := by
  have hend : access.writeEnd = true := by
    have hmode := h.mode hopen
    cases access <;> trivial
  have hread : f.pipe.readOpen ≠ 0 := h.readOpen ▸ hreader
  obtain ⟨byte, rest, rfl⟩ := exists_cons_of_ne_nil hdata
  have hturn : f.pipeWrite access (byte :: rest) false true =
      f.system.writeOn { data := byte :: rest, written := 0, own := [] } false true := by
    rw [pipeWrite, if_pos hend, System.writeTurn, if_neg hdata]
    exact if_neg hread
  rw [hturn, System.writeOn]
  by_cases hfull : f.pipe.size = kPipeBufferSize
  · simp [system, hfull, hread, System.stall]
  · have hroom : f.pipe.size < kPipeBufferSize := lt_of_le_of_ne h.ring.size hfull
    left
    simp only [system, hfull, hroom, if_false, if_true, drop_zero, copyIn, nil_append]
    split
    · split <;> exact cons_ne_nil _ _
    · exact cons_ne_nil _ _

theorem right : f.Right :=
  ⟨h.toCounts, fun _ _ _ _ hread hsize => h.atEnd hread hsize,
    fun _ _ hwrite hopen hreader hdata => h.stores hwrite hopen hreader hdata⟩

end Counted

theorem counted_fresh (anonymous : Bool) : (fresh anonymous).Counted := by
  cases anonymous <;>
    exact ⟨⟨rfl, rfl, rfl⟩, ⟨rfl, by decide⟩, fun _ => rfl, ⟨by decide, rfl, by decide⟩⟩

section

variable (hring : Ring f.pipe) {nonBlock blocked : Bool}

include hring

theorem copied_self : Copied f.pipe f.pipe := ⟨hring, rfl, rfl, rfl, rfl⟩

theorem pipeRead_copied (size : Nat) :
    Copied f.pipe (f.pipeRead access size nonBlock blocked).pipe := by
  unfold pipeRead System.readTurn
  split_ifs <;> first | exact copied_self hring | exact (copyOut_spec size hring).1

theorem writeOn_copied (w : Write) :
    Copied f.pipe (f.system.writeOn w nonBlock blocked).pipe := by
  have hcopied := (copyIn_spec (w.data.drop w.written) hring).1
  unfold System.writeOn System.stall
  dsimp only
  split_ifs <;> first | exact copied_self hring | exact hcopied

theorem pipeWrite_copied (data : List UInt8) :
    Copied f.pipe (f.pipeWrite access data nonBlock blocked).pipe := by
  unfold pipeWrite System.writeTurn
  split_ifs <;> first | exact copied_self hring | exact writeOn_copied hring _

end

end Fifo

/-! ## All pipes -/

namespace Registry

variable {κ : Type} {r : Registry κ}

/-- Nothing is freed and no entry is lost. -/
structure Kept (r r' : Registry κ) : Prop where
  freed : ∀ id, (r.fifos id).pipe.freed = false → (r'.fifos id).pipe.freed = false
  gFifos : ∀ slot entry, r.gFifos slot = some entry → r'.gFifos slot = some entry

theorem Kept.refl : Kept r r := ⟨fun _ hfreed => hfreed, fun _ _ hslot => hslot⟩

theorem Kept.trans {r' r'' : Registry κ} (h : Kept r r') (h' : Kept r' r'') : Kept r r'' :=
  ⟨fun id hid => h'.freed id (h.freed id hid),
    fun slot entry hslot => h'.gFifos slot entry (h.gFifos slot entry hslot)⟩

theorem Kept.put {id : Nat} {f : Fifo} (hfreed : f.pipe.freed = (r.fifos id).pipe.freed) :
    Kept r { r with fifos := update r.fifos id f } :=
  ⟨(forall_update_iff r.fifos fun id f => (r.fifos id).pipe.freed = false →
    f.pipe.freed = false).2 ⟨hfreed.trans, fun _ _ hid => hid⟩, fun _ _ hslot => hslot⟩

theorem Kept.create (anonymous : Bool) {gFifos : Fin kMaxFifos → Option (κ × Nat)}
    (hentries : ∀ slot entry, r.gFifos slot = some entry → gFifos slot = some entry) :
    Kept r
      { gFifos := gFifos
        fifos := update r.fifos r.created (.fresh anonymous)
        created := r.created + 1 } :=
  ⟨(forall_update_iff r.fifos fun id f => (r.fifos id).pipe.freed = false →
    f.pipe.freed = false).2 ⟨fun _ => rfl, fun _ _ hid => hid⟩, hentries⟩

namespace Counted

variable (h : r.Counted)

include h

theorem put {id : Nat} {f : Fifo} (hf : f.Counted)
    (hfreed : f.pipe.freed = (r.fifos id).pipe.freed) :
    Counted { r with fifos := update r.fifos id f } := by
  refine ⟨(forall_update_iff r.fifos fun _ f => f.Counted).2 ⟨hf, fun id _ => h.fifos id⟩,
    fun slot key id' hslot => ?_⟩
  obtain ⟨hlt, halive⟩ := h.named slot key id' hslot
  exact ⟨hlt, (Kept.put hfreed).freed id' halive⟩

/-- A pipe with a new number; the table may get an entry for it. -/
theorem create (anonymous : Bool) {gFifos : Fin kMaxFifos → Option (κ × Nat)}
    (hentries : ∀ slot key id, gFifos slot = some (key, id) →
      r.gFifos slot = some (key, id) ∨ id = r.created) :
    Counted
      { gFifos := gFifos
        fifos := update r.fifos r.created (.fresh anonymous)
        created := r.created + 1 } := by
  refine ⟨(forall_update_iff r.fifos fun _ f => f.Counted).2
    ⟨Fifo.counted_fresh anonymous, fun id _ => h.fifos id⟩, fun slot key id hslot => ?_⟩
  dsimp only
  rcases hentries slot key id hslot with hold | rfl
  · obtain ⟨hlt, halive⟩ := h.named slot key id hold
    rw [update_of_ne hlt.ne]
    exact ⟨Nat.lt_succ_of_lt hlt, halive⟩
  · rw [update_self]
    exact ⟨Nat.lt_succ_self _, rfl⟩

/-- A turn on a pipe. -/
theorem turn {id : Nat} {access : Access} {s : System} (hs : Copied (r.fifos id).pipe s.pipe) :
    (r.turn id access s).Counted ∧ Kept r (r.turn id access s) := by
  unfold Registry.turn
  split
  · exact ⟨h, .refl⟩
  · exact ⟨h.put ((h.fifos id).copied hs) hs.freed, .put hs.freed⟩

/-- The entries of a pipe are cleared with its last reference. -/
theorem pipeClose_gFifos {id id' : Nat} {access : Access} {slot : Fin kMaxFifos} {key : κ}
    (hopen : (r.fifos id).ends access ≠ 0) (hslot : r.gFifos slot = some (key, id')) :
    (r.pipeClose id access).gFifos slot =
      if id' = id ∧ (r.fifos id).endpoints = 1 then none else some (key, id') := by
  simp only [Registry.pipeClose, (h.fifos id).refs_closed hopen]
  by_cases hlast : (r.fifos id).endpoints = 1
  · simp [hlast, fifoForget, hslot]
  · simp [hlast, hslot]

theorem pipeClose {id : Nat} {access : Access} (hopen : (r.fifos id).ends access ≠ 0) :
    (r.pipeClose id access).Counted := by
  refine ⟨(forall_update_iff r.fifos fun _ f => f.Counted).2
    ⟨(h.fifos id).closed hopen, fun id' _ => h.fifos id'⟩, fun slot key id' hslot => ?_⟩
  have hold : r.gFifos slot = some (key, id') := by
    simp only [Registry.pipeClose] at hslot
    split at hslot
    · rw [fifoForget] at hslot
      split at hslot
      · cases hslot
      · exact hslot
    · exact hslot
  obtain ⟨hlt, halive⟩ := h.named slot key id' hold
  refine ⟨hlt, ?_⟩
  rw [h.pipeClose_gFifos hopen hold] at hslot
  simp only [Registry.pipeClose]
  by_cases hid : id' = id
  · subst hid
    rw [update_self, Bool.eq_false_iff, Ne, (h.fifos id').freed_closed hopen]
    intro hlast
    rw [if_pos ⟨rfl, hlast⟩] at hslot
    cases hslot
  · rw [update_of_ne hid, halive]

end Counted

theorem lastClose_pipeClose {closed id : Nat} {access : Access}
    (hopen : (r.fifos closed).ends access ≠ 0) :
    r.LastClose (.pipeClose closed access) id ↔ id = closed ∧ (r.fifos closed).endpoints = 1 := by
  constructor
  · rintro ⟨hone, access', _, heq⟩
    cases heq
    exact ⟨rfl, hone⟩
  · rintro ⟨rfl, hone⟩
    exact ⟨hone, access, hopen, rfl⟩

variable [DecidableEq κ]

theorem exists_of_fifoLookup {key : κ} {id : Nat} (hid : r.fifoLookup key = some id) :
    ∃ slot, r.gFifos slot = some (key, id) := by
  obtain ⟨slot, _, hslot⟩ := exists_of_findSome?_eq_some hid
  obtain ⟨entry, hentry, hkey⟩ := Option.bind_eq_some_iff.1 hslot
  split at hkey
  · rename_i heq
    exact ⟨slot, by rw [hentry, ← heq, ← Option.some.inj hkey]⟩
  · cases hkey

namespace Counted

variable (h : r.Counted)

include h

/-- The pipe found or created is not freed. -/
theorem fifoGetOrCreate (key : κ) (memory : Bool) :
    (r.fifoGetOrCreate key memory).2.Counted ∧ Kept r (r.fifoGetOrCreate key memory).2 ∧
      ∀ id, (r.fifoGetOrCreate key memory).1 = some id →
        id < (r.fifoGetOrCreate key memory).2.created ∧
          ((r.fifoGetOrCreate key memory).2.fifos id).pipe.freed = false := by
  unfold Registry.fifoGetOrCreate
  split
  · rename_i found hfound
    obtain ⟨slot, hslot⟩ := exists_of_fifoLookup hfound
    exact ⟨h, .refl, fun id hid => Option.some.inj hid ▸ h.named slot key found hslot⟩
  split
  · exact ⟨h, .refl, nofun⟩
  rename_i slot hfree
  have hfound : (r.gFifos slot).isNone = true :=
    find?_some (p := fun slot => (r.gFifos slot).isNone) hfree
  have hnone : r.gFifos slot = none := Option.isNone_iff_eq_none.1 hfound
  split
  · refine ⟨h.create false fun slot' key' id hslot => ?_,
      .create false fun slot' entry hslot => ?_, fun id hid => ?_⟩
    · by_cases hsame : slot' = slot
      · rw [hsame, update_self] at hslot
        exact .inr (congrArg Prod.snd (Option.some.inj hslot)).symm
      · rw [update_of_ne hsame] at hslot
        exact .inl hslot
    · have hother : slot' ≠ slot := fun hsame => by rw [hsame, hnone] at hslot; cases hslot
      rw [update_of_ne hother, hslot]
    · dsimp only
      rw [← Option.some.inj hid, update_self]
      exact ⟨Nat.lt_succ_self _, rfl⟩
  · exact ⟨h, .refl, nofun⟩

/-- `openFifo` opens no endpoint, or one of a pipe that is not freed. -/
theorem openFifo_cases (key : κ) (access : Access) (pipe endpoint : Bool) :
    ∃ r', Counted r' ∧ Kept r r' ∧ (r.openFifo key access pipe endpoint = r' ∨
      ∃ id, id < r'.created ∧ (r'.fifos id).pipe.freed = false ∧
        r.openFifo key access pipe endpoint = r'.opened id access) := by
  obtain ⟨hcounted, hkept, halive⟩ := h.fifoGetOrCreate key pipe
  refine ⟨_, hcounted, hkept, ?_⟩
  unfold Registry.openFifo
  split
  · rename_i heq
    exact .inl (congrArg Prod.snd heq).symm
  · rename_i id r' heq
    rw [heq] at halive ⊢
    cases endpoint with
    | false => exact .inl rfl
    | true => exact .inr ⟨id, (halive id rfl).1, (halive id rfl).2, rfl⟩

/-- Every call keeps the counts, or opens an endpoint from a state with right counts. -/
theorem step_cases (call : Call κ) :
    (r.step call).Counted ∨ ∃ r' id access, Counted r' ∧ id < r'.created ∧
      (r'.fifos id).pipe.freed = false ∧ r.step call = r'.opened id access := by
  cases call with
  | pipe2 => exact .inl (h.create true fun _ _ _ hslot => .inl hslot)
  | openFifo key access pipe endpoint =>
    obtain ⟨r', hcounted, _, heq | ⟨id, hlt, halive, heq⟩⟩ :=
      h.openFifo_cases key access pipe endpoint
    · rw [Registry.step, heq]
      exact .inl hcounted
    · exact .inr ⟨r', id, access, hcounted, hlt, halive, heq⟩
  | pipeClose id access =>
    dsimp only [Registry.step]
    split
    · exact .inl h
    · rename_i hopen
      exact .inl (h.pipeClose hopen)
  | read id access size nonBlock blocked =>
    exact .inl (h.turn (Fifo.pipeRead_copied (h.fifos id).ring size)).1
  | write id access data nonBlock blocked =>
    exact .inl (h.turn (Fifo.pipeWrite_copied (h.fifos id).ring data)).1
  | resume id w nonBlock blocked =>
    exact .inl (h.turn (Fifo.writeOn_copied (h.fifos id).ring w)).1

/-- A plain call keeps the counts. -/
theorem step {call : Call κ} (hplain : (r.step call).Plain) : (r.step call).Counted := by
  rcases h.step_cases call with hcounted | ⟨r', id, access, hcounted, hlt, halive, heq⟩
  · exact hcounted
  · rw [heq] at hplain ⊢
    have hself : (r'.opened id access).fifos id = (r'.fifos id).opened access := update_self ..
    exact hcounted.put ((hcounted.fifos id).opened halive (hself ▸ hplain id hlt)) rfl

/-- No other call than a close frees a pipe or clears an entry of the table. -/
theorem kept {call : Call κ}
    (hnot : ∀ id access, call = .pipeClose id access → (r.fifos id).ends access = 0) :
    Kept r (r.step call) := by
  cases call with
  | pipe2 => exact .create true fun _ _ hslot => hslot
  | openFifo key access pipe endpoint =>
    obtain ⟨r', _, hkept, heq | ⟨id, _, _, heq⟩⟩ := h.openFifo_cases key access pipe endpoint
    · rw [Registry.step, heq]
      exact hkept
    · rw [Registry.step, heq]
      exact hkept.trans (.put rfl)
  | pipeClose id access =>
    rw [show r.step (.pipeClose id access) = r from if_pos (hnot id access rfl)]
    exact .refl
  | read id access size nonBlock blocked =>
    exact (h.turn (Fifo.pipeRead_copied (h.fifos id).ring size)).2
  | write id access data nonBlock blocked =>
    exact (h.turn (Fifo.pipeWrite_copied (h.fifos id).ring data)).2
  | resume id w nonBlock blocked =>
    exact (h.turn (Fifo.writeOn_copied (h.fifos id).ring w)).2

theorem right : r.Right := by
  suffices hstep : ∀ call, (∀ id, (r.fifos id).pipe.freed = false →
      (((r.step call).fifos id).pipe.freed = true ↔ r.LastClose call id)) ∧
      ∀ slot key id, r.gFifos slot = some (key, id) →
        (r.LastClose call id → (r.step call).gFifos slot = none) ∧
          (¬ r.LastClose call id → (r.step call).gFifos slot = some (key, id)) from
    ⟨fun id => (h.fifos id).right, fun call => (hstep call).1, fun call => (hstep call).2⟩
  intro call
  by_cases hclose : ∃ id access, call = .pipeClose id access ∧ (r.fifos id).ends access ≠ 0
  · obtain ⟨closed, access, rfl, hopen⟩ := hclose
    rw [show r.step (.pipeClose closed access) = r.pipeClose closed access from if_neg hopen]
    refine ⟨fun id halive => ?_, fun slot key id hslot => ?_⟩
    · rw [lastClose_pipeClose hopen, Registry.pipeClose]
      by_cases hid : id = closed
      · subst hid
        simp [(h.fifos id).freed_closed hopen]
      · simp [hid, halive]
    · rw [lastClose_pipeClose hopen, h.pipeClose_gFifos hopen hslot]
      exact ⟨fun hgone => if_pos hgone, fun hkept => if_neg hkept⟩
  · have hkept : Kept r (r.step call) := h.kept fun id access heq =>
      not_not.1 fun hopen => hclose ⟨id, access, heq, hopen⟩
    have hnot : ∀ id, ¬ r.LastClose call id := fun id ⟨_, access, hopen, heq⟩ =>
      hclose ⟨id, access, heq, hopen⟩
    refine ⟨fun id halive => ?_, fun slot key id hslot => ⟨fun hlast => absurd hlast (hnot id),
      fun _ => hkept.gFifos slot _ hslot⟩⟩
    rw [hkept.freed id halive]
    exact ⟨nofun, fun hlast => absurd hlast (hnot id)⟩

end Counted

theorem Reached.counted (h : Reached Plain r) : r.Counted := by
  induction h with
  | boot => exact ⟨fun _ => Fifo.counted_fresh false, nofun⟩
  | step _ call hok ih => exact ih.step hok

end Registry

end InstantOS.Pipes

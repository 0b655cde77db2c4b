import InstantOS.Ipc.SharedMemory
import InstantOS.Process.HandleCalls

/-!
# Descriptors while calls use them

A `FileDescriptor` counts its references: one for each handle, and one for each call that has
pinned it.  The last `VFS::close` calls the `close` operation of the node, which frees what is
behind it, and deletes the descriptor.  A call may sleep, or wait for the disk or the GPU without
the big kernel lock, and threads that share its handles run meanwhile.

`sys_read`, `sys_write`, `sys_fstat` and `sys_fsync` pin the descriptor they use; `sys_ioctl`,
`sys_truncate`, `sys_chmod`, `sys_chown` and `sys_utime` do not.
-/

namespace InstantOS.PinnedFiles

open Handles Function

open Handles (World Handle HandleEntry Event Slot Serves WellHeld live net decodeHandle
  invalidHandle)
open SharedMemory (sourceHandle stdioHandle)

/-! ## Descriptors and calls -/

/-- The reference count of a `FileDescriptor`, and whether its node was closed and it was
deleted. -/
structure FileDescriptor where
  refCount : Nat
  deleted : Bool

/-- The system calls that use what a descriptor refers to. -/
inductive SysCall
  | read
  | write
  | fstat
  | fsync
  | ioctl
  | truncate
  | chmod
  | chown
  | utime
deriving DecidableEq

/-- The calls with a `PinnedFd`. -/
def SysCall.pins : SysCall → Bool
  | .read | .write | .fstat | .fsync => true
  | .ioctl | .truncate | .chmod | .chown | .utime => false

/-- The rights a call asks of the handle. -/
def SysCall.rights : SysCall → BitVec 32
  | .read => 0x1
  | .write | .truncate => 0x2
  | _ => 0

/-- A thread inside a call. -/
structure Running where
  name : SysCall
  fd : Nat
deriving DecidableEq

structure System (T : Type) where
  handles : World T Nat Unit
  fds : Nat → FileDescriptor
  created : Nat
  running : List Running

/-- `VFS::retain`. -/
def retainFd (fds : Nat → FileDescriptor) (fd : Nat) : Nat → FileDescriptor :=
  Function.update fds fd { fds fd with refCount := ((fds fd).refCount + 1) % 2 ^ 32 }

/-- `VFS::close`. -/
def closeFd (fds : Nat → FileDescriptor) (fd : Nat) : Nat → FileDescriptor :=
  let left := ((fds fd).refCount + (2 ^ 32 - 1)) % 2 ^ 32
  Function.update fds fd { refCount := left, deleted := (fds fd).deleted || left == 0 }

/-- A call of `retainFileHandle` or `releaseFileHandle` by the handle table. -/
def deliver (event : Event Nat Unit) (fds : Nat → FileDescriptor) : Nat → FileDescriptor :=
  match event with
  | .retain _ (some fd) => retainFd fds fd
  | .release _ (some fd) => closeFd fds fd
  | _ => fds

section

variable {T : Type} [DecidableEq T] (s : System T)

def System.boot : System T :=
  { handles := .fresh, fds := fun _ => ⟨0, false⟩, created := 0, running := [] }

/-- An operation on the handle tables with the calls it makes. -/
def System.onHandles (op : World T Nat Unit → World T Nat Unit) : System T :=
  let w := op s.handles
  { s with handles := { w with calls := [] }, fds := w.calls.foldr deliver s.fds }

/-- The entry `allocateFD` writes. -/
def fileEntry (fd : Nat) (rights : BitVec 32) (closeOnExec : Bool) : HandleEntry Nat Unit :=
  { type := .file, rights := rights, object := some fd, retain := some (), release := some ()
    closeOnExec := closeOnExec }

/-- A new descriptor gets a handle, or is closed again. -/
def System.openFile (t : T) (rights : BitVec 32) (closeOnExec : Bool) : System T :=
  let fd := s.created
  let fds := Function.update s.fds fd ⟨1, false⟩
  let allocated := Handles.allocate s.handles t (fileEntry fd rights closeOnExec)
  if allocated.1 = invalidHandle then { s with created := fd + 1, fds := closeFd fds fd }
  else { s with created := fd + 1, fds := fds, handles := allocated.2 }

def System.sysClose (t : T) (handle : Handle) : System T :=
  if handle.toNat < 3 then s
  else if (Handles.getObject s.handles t handle .file 0).isSome then
    s.onHandles fun w => (Handles.closeExpecting w t handle .file).2
  else s.onHandles fun w => (Handles.close w t handle).2

/-- The handle `sys_dup2` replaces. -/
def targetHandle (newHandle : Handle) : Handle :=
  if h : newHandle.toNat ≤ 2 then stdioHandle newHandle h else newHandle

/-- What threads do.  `begin` takes the handle of a file (the bare numbers 0, 1 and 2 were
translated), and `finish` is the return of a call that is under way. -/
inductive Op (T : Type)
  | openFile (t : T) (rights : BitVec 32) (closeOnExec : Bool)
  | close (t : T) (handle : Handle)
  | dup (t : T) (handle : Handle)
  | dup2 (t : T) (oldHandle newHandle : Handle)
  | begin (t : T) (handle : Handle) (name : SysCall)
  | finish (call : Running)

def System.step : Op T → System T
  | .openFile t rights closeOnExec => s.openFile t rights closeOnExec
  | .close t handle => s.sysClose t handle
  | .dup t handle =>
    s.onHandles fun w => (Handles.duplicate w t (sourceHandle s.handles t handle)).2
  | .dup2 t oldHandle newHandle => s.onHandles fun w =>
    (Handles.duplicateTo w t (sourceHandle s.handles t oldHandle) (targetHandle newHandle)).2
  | .begin t handle name =>
    match Handles.getObject s.handles t handle .file name.rights with
    | none => s
    | some fd =>
      { s with
        running := ⟨name, fd⟩ :: s.running
        fds := if name.pins then retainFd s.fds fd else s.fds }
  | .finish call =>
    if call ∈ s.running then
      { s with
        running := s.running.erase call
        fds := if call.name.pins then closeFd s.fds call.fd else s.fds }
    else s

/-- The states of the runs whose operations meet `ok`. -/
inductive Reached (ok : System T → Op T → Prop) : System T → Prop
  | boot : Reached ok .boot
  | step {s : System T} (h : Reached ok s) (op : Op T) (hop : ok s op) : Reached ok (s.step op)

/-- The handle does not name a descriptor in a call that has not pinned it. -/
def System.Spares (t : T) (handle : Handle) : Prop :=
  ∀ call ∈ s.running, call.name.pins = false → ∀ type slot,
    decodeHandle handle = some (type, slot) → (s.handles.entries t slot).object ≠ some call.fd

/-- No count is near its end. -/
def System.Roomy : Prop :=
  ∀ fd, (s.fds fd).refCount + Handles.maxHandles < 2 ^ 32

def Careful : Op T → Prop
  | .close t handle => s.Spares t handle
  | .dup2 t _ newHandle => s.Spares t (targetHandle newHandle) ∧ s.Roomy
  | .dup _ _ | .begin _ _ _ => s.Roomy
  | _ => True

end

/-! ## Counting -/

/-- Every count covers the references there are, a deleted descriptor has none left, and the
descriptors from `created` on have not been made. -/
structure Counted (created : Nat) (refs : Nat → Int) (fds : Nat → FileDescriptor) : Prop where
  counted : ∀ fd, refs fd ≤ (fds fd).refCount
  bounded : ∀ fd, (fds fd).refCount < 2 ^ 32
  last : ∀ fd, (fds fd).deleted = true → (fds fd).refCount = 0
  fresh : ∀ fd, created ≤ fd → (fds fd).refCount = 0

namespace Counted

variable {created : Nat} {refs : Nat → Int} {fds : Nat → FileDescriptor} {fd : Nat}

section

variable (h : Counted created refs fds)

include h

theorem mono {refs' : Nat → Int} (hle : ∀ fd, refs' fd ≤ refs fd) : Counted created refs' fds :=
  { h with counted := fun fd => (hle fd).trans (h.counted fd) }

theorem not_deleted (hone : 1 ≤ refs fd) : (fds fd).deleted = false := by
  have hcount := h.counted fd
  rw [← Bool.not_eq_true]
  intro hdeleted
  have hzero := h.last fd hdeleted
  omega

/-- One descriptor changes. -/
theorem update {d : FileDescriptor} {n : Int}
    (hcounted : n ≤ d.refCount) (hbounded : d.refCount < 2 ^ 32)
    (hlast : d.deleted → d.refCount = 0) (hold : fd < created) :
    Counted created (Function.update refs fd n) (Function.update fds fd d) := by
  refine ⟨fun fd' => ?_, fun fd' => ?_, fun fd' => ?_, fun fd' hfd' => ?_⟩ <;>
    by_cases heq : fd' = fd
  · subst heq
    simpa using hcounted
  · simpa [heq] using h.counted fd'
  · subst heq
    simpa using hbounded
  · simpa [heq] using h.bounded fd'
  · subst heq
    simpa using hlast
  · simpa [heq] using h.last fd'
  · omega
  · simpa [heq] using h.fresh fd' hfd'

theorem grow : Counted (created + 1) refs fds :=
  { h with fresh := fun fd hfd => h.fresh fd (Nat.le_of_succ_le hfd) }

theorem lt_created (hone : 1 ≤ refs fd) : fd < created := by
  by_contra hnot
  have hcount := h.counted fd
  have hzero := h.fresh fd (Nat.le_of_not_lt hnot)
  omega

theorem retainFd (hone : 1 ≤ refs fd) (hroom : (fds fd).refCount + 1 < 2 ^ 32) :
    Counted created (Function.update refs fd (refs fd + 1)) (retainFd fds fd) := by
  have hcount := h.counted fd
  refine h.update ?_ (Nat.mod_lt _ (by decide)) ?_ (h.lt_created hone)
  · rw [Nat.mod_eq_of_lt hroom]
    dsimp only
    omega
  · intro hdeleted
    exact absurd (hdeleted.symm.trans (h.not_deleted hone)) nofun

theorem closeFd (hone : 1 ≤ refs fd) :
    Counted created (Function.update refs fd (refs fd - 1)) (closeFd fds fd) := by
  have hcount := h.counted fd
  have hbound := h.bounded fd
  have hleft : ((fds fd).refCount + (2 ^ 32 - 1)) % 2 ^ 32 = (fds fd).refCount - 1 := by omega
  unfold PinnedFiles.closeFd
  rw [hleft]
  refine h.update (by dsimp only; omega) (by dsimp only; omega) ?_ (h.lt_created hone)
  dsimp only
  rw [h.not_deleted hone, Bool.false_or, beq_iff_eq]
  exact id

end

theorem retainFd_refCount (fds : Nat → FileDescriptor) (fd fd' : Nat) :
    (PinnedFiles.retainFd fds fd fd').refCount ≤ (fds fd').refCount + 1 := by
  unfold PinnedFiles.retainFd
  by_cases heq : fd' = fd
  · subst heq
    rw [update_self]
    exact Nat.mod_le _ _
  · rw [update_of_ne heq]
    exact Nat.le_add_right _ _

theorem closeFd_refCount (h : Counted created refs fds) (hone : 1 ≤ refs fd) (fd' : Nat) :
    (PinnedFiles.closeFd fds fd fd').refCount ≤ (fds fd').refCount := by
  unfold PinnedFiles.closeFd
  by_cases heq : fd' = fd
  · subst heq
    have hcount := h.counted fd'
    rw [update_self]
    dsimp only
    omega
  · rw [update_of_ne heq]

/-- The calls of an operation, each backed by the references at its time. -/
theorem deliveries (h : Counted created refs fds) {new : List (Event Nat Unit)}
    (hbacked : ∀ later event earlier fd, new = later ++ event :: earlier →
      event.object = some fd → 1 ≤ refs fd + net fd earlier)
    (hroom : ∀ fd, (fds fd).refCount + new.countP Event.isRetain < 2 ^ 32) :
    Counted created (fun fd => refs fd + net fd new) (new.foldr PinnedFiles.deliver fds) :=
  (deliveries_induction (fun _ _ => rfl) (fun _ _ => ⟨rfl, rfl⟩) (fun h hle => h.mono hle)
    (fun h hone hroom => ⟨h.retainFd hone hroom, retainFd_refCount _ _⟩)
    (fun h hone => ⟨h.closeFd hone, h.closeFd_refCount hone⟩) h hbacked hroom).1

end Counted

/-! ## The invariant of a run -/

section

variable {T : Type} [DecidableEq T] [Fintype T]

/-- The calls that have pinned a descriptor. -/
def System.pinned (s : System T) (fd : Nat) : Nat :=
  s.running.countP fun call => call.name.pins && call.fd == fd

/-- An open handle names the descriptor. -/
def Named (w : World T Nat Unit) (fd : Nat) : Prop :=
  ∃ t slot, (w.entries t slot).type ≠ .none ∧ (w.entries t slot).object = some fd

structure Safe (s : System T) : Prop where
  counted : Counted s.created (fun fd => live s.handles fd + s.pinned fd) s.fds
  held : WellHeld s.handles
  quiet : s.handles.calls = []
  named : ∀ call ∈ s.running, call.name.pins = false → Named s.handles call.fd

variable {s : System T}

omit [DecidableEq T] in
theorem Named.live {w : World T Nat Unit} {fd : Nat} (h : Named w fd) (hw : WellHeld w) :
    1 ≤ live w fd := by
  obtain ⟨t, slot, hopen, hobject⟩ := h
  exact hw.live hopen hobject

omit [DecidableEq T] in
theorem live_nonneg (w : World T Nat Unit) (fd : Nat) : 0 ≤ live w fd :=
  Finset.sum_nonneg fun _ _ => holds_nonneg _ _

omit [DecidableEq T] in
/-- An operation on the handle tables that leaves the names of unpinned descriptors. -/
theorem Safe.onHandles (h : Safe s) (op : World T Nat Unit → World T Nat Unit) {k : Nat}
    (hop : ∃ new, Serves s.handles new (op s.handles) 0 k)
    (hroom : ∀ fd, (s.fds fd).refCount + k < 2 ^ 32)
    (hnamed : ∀ call ∈ s.running, call.name.pins = false → Named (op s.handles) call.fd) :
    Safe (s.onHandles op) := by
  obtain ⟨new, hserves⟩ := hop
  have hcalls : (op s.handles).calls = new := by
    rw [hserves.calls, h.quiet, List.append_nil]
  have hbacked : ∀ later event earlier fd, new = later ++ event :: earlier →
      event.object = some fd → 1 ≤ live s.handles fd + s.pinned fd + net fd earlier := by
    intro later event earlier fd hsplit ho
    have hone := hserves.backed later event earlier fd hsplit ho
    omega
  have hdone := h.counted.deliveries hbacked fun fd => by
    have hall := hroom fd
    have hretains := hserves.retains
    omega
  unfold System.onHandles
  dsimp only
  rw [hcalls]
  refine ⟨hdone.mono fun fd => ?_, hserves.held.of_entries rfl, rfl, hnamed⟩
  have hcovered := hserves.covered fd
  rw [Pi.zero_apply] at hcovered
  change live (op s.handles) fd + (s.pinned fd : Int) ≤ _
  omega

/-! ## Names that stay -/

variable {handle : Handle} {slot' : Slot}

omit [Fintype T] in
/-- Closing a handle touches no slot but the one it names. -/
theorem close_keeps (w : World T Nat Unit) {t t' : T}
    (hother : ∀ type slot, decodeHandle handle = some (type, slot) → ¬ (t' = t ∧ slot' = slot)) :
    (close w t handle).2.entries t' slot' = w.entries t' slot' := by
  rcases close_cases w t handle with heq | ⟨type, slot, hdecode, _, heq⟩
  · rw [heq]
  · rw [heq, clearEntry, put_apply, if_neg (hother type slot hdecode), releaseEntry_entries]

omit [Fintype T] in
/-- A copy goes to a free slot. -/
theorem duplicate_keeps {w : World T Nat Unit} (hw : WellHeld w) (t : T) (handle : Handle) {t' : T}
    (hopen : (w.entries t' slot').type ≠ .none) :
    (duplicate w t handle).2.entries t' slot' = w.entries t' slot' := by
  rcases duplicate_cases hw t handle with heq | ⟨slot, _, heq | ⟨free, hfree, heq⟩⟩
  · rw [heq]
  · rw [heq, releaseEntry_entries, retainEntry_entries]
  · rw [heq, put_apply, if_neg, retainEntry_entries]
    rintro ⟨rfl, rfl⟩
    exact hopen hfree

omit [Fintype T] in
/-- A copy over a handle touches no slot but the one it names. -/
theorem duplicateTo_keeps (w : World T Nat Unit) {t t' : T} {oldHandle newHandle : Handle}
    (hother : ∀ type slot, decodeHandle newHandle = some (type, slot) → ¬ (t' = t ∧ slot' = slot)) :
    (duplicateTo w t oldHandle newHandle).2.entries t' slot' = w.entries t' slot' := by
  rcases duplicateTo_cases w t oldHandle newHandle with
    heq | ⟨_, newSlot, _, _, _, _, hdecode, rfl, rfl, heq⟩
  · rw [heq]
  · rw [heq, put_apply, if_neg (hother _ newSlot hdecode)]
    split
    · rw [close_keeps _ hother, retainEntry_entries]
    · rw [retainEntry_entries]

omit [DecidableEq T] [Fintype T] in
/-- A handle that is spared names another slot than an unpinned descriptor. -/
theorem Named.keep {w' : World T Nat Unit} {fd : Nat} (h : Named s.handles fd) {t : T}
    (hspares : ∀ type slot, decodeHandle handle = some (type, slot) →
      (s.handles.entries t slot).object ≠ some fd)
    (hkeeps : ∀ t' slot', (∀ type slot, decodeHandle handle = some (type, slot) →
      ¬ (t' = t ∧ slot' = slot)) → w'.entries t' slot' = s.handles.entries t' slot') :
    Named w' fd := by
  obtain ⟨t', slot', hopen, hobject⟩ := h
  have hsame : w'.entries t' slot' = s.handles.entries t' slot' := by
    refine hkeeps t' slot' fun type slot hdecode => ?_
    rintro ⟨rfl, rfl⟩
    exact hspares type slot' hdecode hobject
  exact ⟨t', slot', by rwa [hsame], by rwa [hsame]⟩

/-! ## The operations -/

section

variable (h : Safe s)

include h

theorem Safe.close {t : T} (hspares : s.Spares t handle) :
    Safe (s.onHandles fun w => (close w t handle).2) :=
  h.onHandles _ (close_serves h.held t handle) h.counted.bounded fun call hcall hpins =>
    (h.named call hcall hpins).keep (hspares call hcall hpins) fun _ _ => close_keeps s.handles

theorem Safe.sysClose {t : T} (hspares : s.Spares t handle) : Safe (s.sysClose t handle) := by
  unfold System.sysClose
  split
  · exact h
  split
  · refine h.onHandles _ (closeExpecting_serves h.held t handle .file) h.counted.bounded
      fun call hcall hpins => ?_
    refine (h.named call hcall hpins).keep (hspares call hcall hpins) fun t' slot' hother => ?_
    rcases closeExpecting_cases s.handles t handle .file with heq | heq
    · rw [heq]
    · rw [heq, close_keeps s.handles hother]
  · exact h.close hspares

theorem Safe.dup (hroom : s.Roomy) (t : T) (handle : Handle) :
    Safe (s.onHandles fun w => (duplicate w t handle).2) := by
  refine h.onHandles _ (duplicate_serves h.held t handle) hroom fun call hcall hpins => ?_
  obtain ⟨t', slot', hopen, hobject⟩ := h.named call hcall hpins
  have hsame := duplicate_keeps h.held t handle hopen
  exact ⟨t', slot', by rwa [hsame], by rwa [hsame]⟩

theorem Safe.dup2 {t : T} {oldHandle newHandle : Handle}
    (hspares : s.Spares t newHandle) (hroom : s.Roomy) :
    Safe (s.onHandles fun w => (duplicateTo w t oldHandle newHandle).2) :=
  h.onHandles _ (duplicateTo_serves h.held t oldHandle newHandle) hroom fun call hcall hpins =>
      (h.named call hcall hpins).keep (hspares call hcall hpins)
        fun _ _ => duplicateTo_keeps s.handles

theorem Safe.openFile (t : T) (rights : BitVec 32) (closeOnExec : Bool) :
    Safe (s.openFile t rights closeOnExec) := by
  have hnone : live s.handles s.created + s.pinned s.created ≤ 0 := by
    have hcount := h.counted.counted s.created
    rw [h.counted.fresh s.created le_rfl] at hcount
    exact hcount
  have hnew : Counted (s.created + 1)
      (update (fun fd => live s.handles fd + (s.pinned fd : Int)) s.created 1)
      (update s.fds s.created ⟨1, false⟩) :=
    h.counted.grow.update le_rfl (by decide) (by simp) (Nat.lt_succ_self _)
  unfold System.openFile
  rcases allocate_cases s.handles t (fileEntry s.created rights closeOnExec) with
    ⟨hfailed, -⟩ | ⟨hdone, -, -, slot, hfree, hput⟩
  · rw [if_pos hfailed]
    refine ⟨(hnew.closeFd (by simp)).mono fun fd => ?_, h.held, h.quiet, h.named⟩
    change live s.handles fd + (s.pinned fd : Int) ≤ _
    by_cases heq : fd = s.created
    · subst heq
      simpa using hnone
    · simp [heq]
  · rw [if_neg hdone, hput]
    refine ⟨hnew.mono fun fd => ?_, h.held.put t slot
      (.inr ⟨by simp [fileEntry], rfl, rfl, rfl⟩), h.quiet,
      fun call hcall hpins => ?_⟩
    · change live (s.handles.put t slot _) fd + (s.pinned fd : Int) ≤ _
      rw [live_put, holds_free hfree]
      by_cases heq : fd = s.created
      · subst heq
        simp [holds]
        omega
      · simp [heq, holds, fileEntry, Ne.symm heq]
    · obtain ⟨t', slot', hopen, hobject⟩ := h.named call hcall hpins
      have hsame :
          (s.handles.put t slot (fileEntry s.created rights closeOnExec)).entries t' slot' =
          s.handles.entries t' slot' := by
        rw [put_apply, if_neg]
        rintro ⟨rfl, rfl⟩
        exact hopen hfree
      exact ⟨t', slot', by rwa [hsame], by rwa [hsame]⟩

theorem Safe.begin (hroom : s.Roomy) (t : T) (handle : Handle) (name : SysCall) :
    Safe (s.step (.begin t handle name)) := by
  unfold System.step
  dsimp only
  split
  · exact h
  rename_i fd hget
  have hname : Named s.handles fd := getObject_some hget
  have hone := hname.live h.held
  have hnamed : ∀ call ∈ (⟨name, fd⟩ : Running) :: s.running, call.name.pins = false →
      Named s.handles call.fd := by
    intro call hcall hpins
    rcases List.mem_cons.1 hcall with rfl | hold
    · exact hname
    · exact h.named call hold hpins
  refine ⟨?_, h.held, h.quiet, hnamed⟩
  cases hpins : name.pins with
  | false =>
    refine h.counted.mono fun fd' => ?_
    simp [System.pinned, hpins]
  | true =>
    have hspace : (s.fds fd).refCount + 1024 < 2 ^ 32 := hroom fd
    have hbacked : 1 ≤ live s.handles fd + (s.pinned fd : Int) := by omega
    refine (h.counted.retainFd hbacked (by omega)).mono fun fd' => ?_
    by_cases heq : fd' = fd
    · subst heq
      simp [System.pinned, hpins]
      omega
    · simp [System.pinned, heq, Ne.symm heq]

theorem Safe.finish (call : Running) : Safe (s.step (.finish call)) := by
  unfold System.step
  dsimp only
  split
  · rename_i hmem
    refine ⟨?_, h.held, h.quiet, fun other hother => h.named other (List.mem_of_mem_erase hother)⟩
    have hlive := live_nonneg s.handles call.fd
    cases hpins : call.name.pins with
    | false =>
      refine h.counted.mono fun fd => ?_
      simp [System.pinned, List.countP_erase]
    | true =>
      have hpinned : 0 < s.pinned call.fd := List.countP_pos_iff.2 ⟨call, hmem, by simp [hpins]⟩
      have hbacked : 1 ≤ live s.handles call.fd + (s.pinned call.fd : Int) := by omega
      refine (h.counted.closeFd hbacked).mono fun fd => ?_
      by_cases heq : fd = call.fd
      · have herase : (s.running.erase call).countP
            (fun other => other.name.pins && other.fd == call.fd) = s.pinned call.fd - 1 := by
          simp [System.pinned, List.countP_erase, hpins, hmem]
        rw [heq, update_self, System.pinned]
        dsimp only
        omega
      · simp [System.pinned, List.countP_erase, heq]
  · exact h

theorem Safe.step {op : Op T} (hop : Careful s op) : Safe (s.step op) := by
  cases op with
  | openFile t rights closeOnExec => exact h.openFile t rights closeOnExec
  | close t handle => exact h.sysClose hop
  | dup t handle => exact h.dup hop t _
  | dup2 t oldHandle newHandle => exact h.dup2 hop.1 hop.2
  | begin t handle name => exact h.begin hop t handle name
  | finish call => exact h.finish call

end

omit [DecidableEq T] in
theorem Safe.boot : Safe (System.boot : System T) := by
  have hlive : ∀ fd, live (System.boot : System T).handles fd = 0 := fun fd =>
    Finset.sum_eq_zero fun _ _ => holds_free rfl fd
  refine ⟨⟨fun fd => ?_, fun _ => Nat.two_pow_pos 32, nofun, fun _ _ => rfl⟩,
    fun _ _ => .inl rfl, rfl, nofun⟩
  rw [hlive]
  exact le_rfl

theorem Reached.safe (h : Reached Careful s) : Safe s := by
  induction h with
  | boot => exact .boot
  | step _ op hop ih => exact ih.step hop

/-- **No descriptor goes while a call uses it, in every run in which no handle of a descriptor in
an unpinned call is closed or replaced and the counts have room.** -/
theorem descriptors_outlive_calls (h : Reached Careful s) :
    ∀ call ∈ s.running, (s.fds call.fd).deleted = false := by
  intro call hcall
  have hsafe := h.safe
  have hlive := live_nonneg s.handles call.fd
  refine hsafe.counted.not_deleted ?_
  cases hpins : call.name.pins with
  | false =>
    have hone := (hsafe.named call hcall hpins).live hsafe.held
    omega
  | true =>
    have hone : 0 < s.pinned call.fd := List.countP_pos_iff.2 ⟨call, hcall, by simp [hpins]⟩
    omega

end

/-! ## A handle closed under a call -/

/-- The handle of the first file that is opened. -/
def firstHandle : Handle := 0x0001000000000003

def opened : System Unit := System.boot.openFile () 0x43 false

/-- A thread uses the file, and another one closes its only handle. -/
def used (name : SysCall) : System Unit := opened.step (.begin () firstHandle name)

def usedClosed (name : SysCall) : System Unit := (used name).step (.close () firstHandle)

theorem opened_roomy : opened.Roomy := by
  intro fd
  have hfds : opened.fds = update (fun _ => ⟨0, false⟩) 0 ⟨1, false⟩ := by
    unfold opened System.openFile
    rw [if_neg (by decide +kernel)]
    rfl
  rw [hfds]
  by_cases heq : fd = 0
  · subst heq
    decide
  · rw [update_of_ne heq]
    decide

theorem descriptors_outlive_calls_read : (usedClosed .read).running = [⟨.read, 0⟩] ∧
      ∀ call ∈ (usedClosed .read).running, ((usedClosed .read).fds call.fd).deleted = false := by
  have hopened : Reached Careful opened := .step .boot (.openFile () _ _) trivial
  have hused : Reached Careful (used .read) := hopened.step (.begin () _ _) opened_roomy
  have hrunning : (used .read).running = [⟨.read, 0⟩] := by decide +kernel
  have hspares : (used .read).Spares () firstHandle := by
    intro call hcall hpins
    rw [hrunning, List.mem_singleton] at hcall
    subst hcall
    cases hpins
  have hclosed : Reached Careful (usedClosed .read) := hused.step (.close () _) hspares
  exact ⟨by decide +kernel, descriptors_outlive_calls hclosed⟩

/-- The descriptor is deleted with a thread inside `ioctl`. -/
theorem closed_under_ioctl : ¬ ∀ s : System Unit, Reached (fun _ _ => True) s →
      ∀ call ∈ s.running, (s.fds call.fd).deleted = false := by
  intro hall
  have hopened : Reached (fun _ _ => True) opened := .step .boot (.openFile () _ _) trivial
  have hused : Reached (fun _ _ => True) (used .ioctl) := hopened.step (.begin () _ _) trivial
  have hclosed : Reached (fun _ _ => True) (usedClosed .ioctl) := hused.step (.close () _) trivial
  have hrunning : (usedClosed .ioctl).running = [⟨.ioctl, 0⟩] := by decide +kernel
  have hmem : (⟨.ioctl, 0⟩ : Running) ∈ (usedClosed .ioctl).running := by
    rw [hrunning]
    exact List.mem_singleton_self _
  have hkept := hall (usedClosed .ioctl) hclosed _ hmem
  revert hkept
  decide +kernel

end InstantOS.PinnedFiles

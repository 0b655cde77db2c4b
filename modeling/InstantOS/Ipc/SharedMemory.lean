import InstantOS.Process.Handles
import InstantOS.Process.UserMemory

/-!
# Shared memory objects

`SharedMemoryObject` of `src/ipc/ipc.cpp` with the registry of `IPCManager`, the calls
`sys_shared_alloc`, `sys_shared_map` and `sys_shared_free`, and what closing and copying
handles, `sys_munmap`, `sys_fork`, thread creation and `~Process` do to an object.

A pointer to an object is the number of its `new`, so two objects never have one name.
What the heap holds at a pointer stays readable after `delete`: a method that runs on a
destroyed object reads the fields `destroy` left, and the log shows the call.  Of a page
table only the leaves with `kSharedFrame` appear, as the map from the page the four
indices of an address select to the frame there.  `MapPageInto` gives up silently when it
gets no frame for a table, so which pages of a range are mapped is an outcome.
-/

namespace InstantOS.SharedMemory

open Function

open Pmm (pageSize)
open Handles (Handle HandleEntry HandleType World invalidHandle)
open Vma (add64 alignUp)

/-! ## Objects and the system around them -/

/-- `SharedMemoryObject::Mapping`. -/
structure Mapping where
  pid : Nat
  address : Nat
deriving DecidableEq, Repr

/-- The fields of `SharedMemoryObject`; the first `mappingCount` slots of `mappings`. -/
structure SharedMemoryObject where
  alignedSize : Nat
  physBase : Nat
  refCount : Nat
  mappings : List Mapping
deriving DecidableEq, Repr

def maxMappings : Nat := 32
def maxSharedObjects : Nat := 64

namespace SharedMemoryObject

/-- The constructor: the first reference is the caller's. -/
def new (alignedSize physBase : Nat) : SharedMemoryObject :=
  { alignedSize, physBase, refCount := 1, mappings := [] }

def pages (object : SharedMemoryObject) : Nat := object.alignedSize / pageSize

/-- The frames `destroy` returns to the PMM. -/
def frames (object : SharedMemoryObject) : List Nat :=
  (List.range object.pages).map fun i => (object.physBase + i * pageSize) / pageSize

def findMappingSlot (object : SharedMemoryObject) (pid : Nat) :
    Option (Fin object.mappings.length) :=
  (List.finRange object.mappings.length).find? fun i => (object.mappings.get i).pid = pid

def canDestroy (object : SharedMemoryObject) : Bool :=
  decide (object.refCount = 0 ∧ object.mappings.length = 0)

end SharedMemoryObject

/-- The last mapping moves into the freed slot. -/
def removeSlot (mappings : List Mapping) (slot : Nat) : List Mapping :=
  match mappings.getLast? with
  | none => []
  | some last => (mappings.set slot last).dropLast

/-- The page `PML4Index`, `PDPTIndex`, `PDIndex` and `PTIndex` select. -/
def pageOf (va : Nat) : Nat := va / pageSize % 2 ^ 36

/-- The pages of a range, as the loops over it form their addresses. -/
def rangePages (address pages : Nat) : List Nat :=
  (List.range pages).map fun i => pageOf (add64 address (i * pageSize))

abbrev PageTable := Nat → Option Nat

/-- `MapRangeInto` with `kSharedFrame`; `mapped` says for which pages the tables were there
or could be allocated. -/
def mapRangeInto (table : PageTable) (address physBase pages : Nat) (mapped : Nat → Bool) :
    PageTable :=
  (List.range pages).foldl (fun table i =>
      if mapped i then
        update table (pageOf (add64 address (i * pageSize)))
          (some ((physBase + i * pageSize) / pageSize))
      else table) table

/-- `UnmapRangeFrom`, and what mapping other pages over a range does to the shared ones. -/
def unmapRangeFrom (table : PageTable) (address pages : Nat) : PageTable :=
  fun page => if page ∈ rangePages address pages then none else table page

/-- A `Process`: a thread with its pid, the `ProcessSharedState` it runs in, and the base
and pages of its stack if that is backed by the kernel heap. -/
structure Process (T : Type) where
  pid : Nat
  sharedState : T
  stack : Option (Nat × Nat)
deriving DecidableEq, Repr

/-- What is recorded about the objects: a method that starts on one, and `destroy` with the
frames it returns and the page tables as they are then. -/
inductive LifeEvent (T : Type)
  | call (object : Nat)
  | destroy (object : Nat) (frames : List Nat) (tables : T → PageTable)

/-- The objects, their registry, and the processes with their handle and page tables.
`stateRefs` is the `refCount` of a `ProcessSharedState`; the log has the latest event
first. -/
structure System (T : Type) where
  handles : World T Nat Unit
  objects : Nat → SharedMemoryObject
  created : Nat
  sharedObjects : Fin maxSharedObjects → Option Nat
  processes : Nat → Option (Process T)
  nextPID : Nat
  stateRefs : T → Nat
  pageTable : T → PageTable
  mmapBase : T → Nat
  log : List (LifeEvent T)

section

variable {T : Type} [DecidableEq T] (s : System T)

/-- Nothing runs and nothing is shared. -/
def System.boot : System T where
  handles := .fresh
  objects := fun _ => { alignedSize := 0, physBase := 0, refCount := 0, mappings := [] }
  created := 0
  sharedObjects := fun _ => none
  processes := fun _ => none
  nextPID := 1
  stateRefs := fun _ => 0
  pageTable := fun _ _ => none
  mmapBase := fun _ => Vma.mmapBaseDefault
  log := []

def System.note (event : LifeEvent T) : System T :=
  { s with log := event :: s.log }

def System.setObject (o : Nat) (object : SharedMemoryObject) : System T :=
  { s with objects := update s.objects o object }

def System.setTable (t : T) (table : PageTable) : System T :=
  { s with pageTable := update s.pageTable t table }

/-! ## The registry -/

variable (o : Nat)

/-- `registerSharedObject`: without a free slot the object stays unregistered. -/
def registerSharedObject : System T :=
  match (List.finRange maxSharedObjects).find? fun i => (s.sharedObjects i).isNone with
  | some i => { s with sharedObjects := update s.sharedObjects i (some o) }
  | none => s

def forgetSharedObject : System T :=
  match (List.finRange maxSharedObjects).find? fun i => s.sharedObjects i = some o with
  | some i => { s with sharedObjects := update s.sharedObjects i none }
  | none => s

/-! ## The methods of an object -/

/-- `destroy`: the object leaves the registry, its frames go back to the PMM. -/
def destroy : System T :=
  let s := forgetSharedObject s o
  s.note (.destroy o (s.objects o).frames s.pageTable)

/-- `if (canDestroy()) destroy();` -/
def destroyIfUnused : System T :=
  if (s.objects o).canDestroy then destroy s o else s

def retain : System T :=
  let s := s.note (.call o)
  let object := s.objects o
  s.setObject o { object with refCount := (object.refCount + 1) % 2 ^ 32 }

def release : System T :=
  let s := s.note (.call o)
  let object := s.objects o
  if object.refCount = 0 then s
  else destroyIfUnused (s.setObject o { object with refCount := object.refCount - 1 }) o

/-- `mapInto`; the process is not null. -/
def mapInto (process : Process T) (mapped : Nat → Bool) : Nat × System T :=
  let s := s.note (.call o)
  let object := s.objects o
  match object.findMappingSlot process.pid with
  | some existing => ((object.mappings.get existing).address, s)
  | none =>
    if maxMappings ≤ object.mappings.length then (0, s)
    else
      let t := process.sharedState
      -- reserveMmapRegion
      let address := s.mmapBase t
      let s := { s with
        mmapBase := update s.mmapBase t
          (add64 address (alignUp object.alignedSize pageSize)) }
      let s := s.setTable t
        (mapRangeInto (s.pageTable t) address object.physBase object.pages mapped)
      (address, s.setObject o
        { object with mappings := object.mappings ++ [⟨process.pid, address⟩] })

def unmapFrom (process : Process T) : Bool × System T :=
  let s := s.note (.call o)
  let object := s.objects o
  match object.findMappingSlot process.pid with
  | none => (false, s)
  | some slot =>
    let t := process.sharedState
    let s := s.setTable t
      (unmapRangeFrom (s.pageTable t) (object.mappings.get slot).address object.pages)
    let s := s.setObject o { object with mappings := removeSlot object.mappings slot }
    (true, destroyIfUnused s o)

/-- `while (unmapFrom(process)) {}`, for as many turns as `fuel` allows. -/
def unmapLoop (o : Nat) (process : Process T) : Nat → System T → System T
  | 0, s => s
  | fuel + 1, s =>
    let (again, s) := unmapFrom s o process
    if again then unmapLoop o process fuel s else s

/-- `unmapAllFrom`: every turn that goes on takes a mapping away. -/
def unmapAllFrom (process : Process T) : System T :=
  let s := s.note (.call o)
  unmapLoop o process ((s.objects o).mappings.length + 1) s

/-- The handle table's call of `retainSharedMemoryHandle` or `releaseSharedMemoryHandle`. -/
def deliver (event : Handles.Event Nat Unit) (s : System T) : System T :=
  match event with
  | .retain _ (some o) => retain s o
  | .release _ (some o) => release s o
  | _ => s

/-- An operation on the handle tables, with the calls it makes.  The operations read no
object and the calls read no table, so the calls may follow. -/
def onHandles (op : World T Nat Unit → World T Nat Unit) : System T :=
  let w := op { s.handles with calls := [] }
  w.calls.foldr deliver { s with handles := { w with calls := [] } }

/-! ## The calls of a process -/

variable (process : Process T)

/-- `HandleRightMap`. -/
def handleRightMap : BitVec 32 := 0x4

/-- The entry `sys_shared_alloc` puts into the table: `kSharedHandleRights`, the object and
the two functions that count its references. -/
def sharedEntry (o : Nat) : HandleEntry Nat Unit :=
  { type := .sharedMemory, rights := handleRightMap ||| Handles.handleRightDuplicate
    object := some o, retain := some (), release := some (), closeOnExec := false }

/-- `createSharedMemory` for the frames at `phys`: none, or no memory for the object, and
nothing stays behind. -/
def createSharedMemory (size : Nat) (phys : Option Nat) (node : Bool) : Option Nat × System T :=
  if size = 0 then (none, s)
  else
    match phys, node with
    | some physBase, true =>
      let o := s.created
      let s := { s with created := o + 1 }.setObject o (.new (alignUp size pageSize) physBase)
      (some o, registerSharedObject s o)
    | _, _ => (none, s)

def sysSharedAlloc (size : Nat) (phys : Option Nat) (node : Bool) : Handle × System T :=
  match createSharedMemory s size phys node with
  | (none, s) => (invalidHandle, s)
  | (some o, s) =>
    let handleValue := (Handles.allocate s.handles process.sharedState (sharedEntry o)).1
    let s := onHandles s fun w => (Handles.allocate w process.sharedState (sharedEntry o)).2
    (handleValue, if handleValue = invalidHandle then release s o else s)

/-- `sys_shared_map` of a shared memory handle; `none` is the error. -/
def sysSharedMap (handle : Handle) (mapped : Nat → Bool) : Option Nat × System T :=
  match Handles.getObject s.handles process.sharedState handle .sharedMemory handleRightMap with
  | none => (none, s)
  | some o =>
    let (address, s) := mapInto s o process mapped
    (if address = 0 then none else some address, s)

/-- `sys_shared_free` of a shared memory handle; `false` is the error. -/
def sysSharedFree (handle : Handle) : Bool × System T :=
  let t := process.sharedState
  match Handles.getObject s.handles t handle .sharedMemory 0 with
  | none => (false, s)
  | some o =>
    let s := unmapAllFrom s o process
    ((Handles.closeExpecting s.handles t handle .sharedMemory).1,
      onHandles s fun w => (Handles.closeExpecting w t handle .sharedMemory).2)

/-- `sys_close`: a file descriptor is closed as one, the small numbers are refused. -/
def sysClose (handle : Handle) : System T :=
  let t := process.sharedState
  if handle.toNat < 3 then s
  else if (Handles.getObject s.handles t handle .file 0).isSome then
    onHandles s fun w => (Handles.closeExpecting w t handle .file).2
  else onHandles s fun w => (Handles.close w t handle).2

/-- The file handle of one of the slots `0`, `1` and `2`. -/
def stdioHandle (handle : Handle) (h : handle.toNat ≤ 2) : Handle :=
  Handles.encodeHandle .file ⟨handle.toNat, Nat.lt_of_le_of_lt h (by decide)⟩

/-- The handle `sys_dup` and `sys_dup2` copy: a bare number up to 2 stands for the file in
that slot, if there is one. -/
def sourceHandle (w : World T Nat Unit) (t : T) (handle : Handle) : Handle :=
  if h : handle.toNat ≤ 2 then
    if (Handles.get w t (stdioHandle handle h)).isSome then stdioHandle handle h else handle
  else handle

def sysDup (handle : Handle) : System T :=
  let t := process.sharedState
  onHandles s fun w => (Handles.duplicate w t (sourceHandle s.handles t handle)).2

def sysDup2 (oldHandle newHandle : Handle) : System T :=
  let t := process.sharedState
  let newHandle := if h : newHandle.toNat ≤ 2 then stdioHandle newHandle h else newHandle
  onHandles s fun w =>
    (Handles.duplicateTo w t (sourceHandle s.handles t oldHandle) newHandle).2

/-- `sys_munmap`: a page with `kSharedFrame` is unmapped and its frame kept. -/
def sysMunmap (addr length : Nat) : System T :=
  let t := process.sharedState
  if Vma.badRange addr length then s
  else s.setTable t (unmapRangeFrom (s.pageTable t) addr (Vma.pageCount length))

/-! ## Processes and threads -/

/-- `allocatePID`. -/
def allocatePID : Nat × System T :=
  (s.nextPID, { s with nextPID := (s.nextPID + 1) % 2 ^ 32 })

/-- A `Process` with a new `ProcessSharedState`: empty handle and page tables, and the
cursor at its start. -/
def newProcess : System T :=
  let t := process.sharedState
  { s with
    handles := { s.handles with
      entries := update s.handles.entries t fun _ => .cleared }
    processes := update s.processes process.pid (some process)
    stateRefs := update s.stateRefs t 1
    pageTable := update s.pageTable t fun _ => none
    mmapBase := update s.mmapBase t Vma.mmapBaseDefault }

/-- The part of `cleanupProcess` that concerns shared memory. -/
def cleanupProcess : System T :=
  (List.finRange maxSharedObjects).foldl (fun s i =>
      match s.sharedObjects i with
      | some o => unmapAllFrom s o process
      | none => s) s

/-- `releaseSharedState`: the last thread closes all handles and frees the page table,
which leaves the frames of shared pages alone. -/
def releaseSharedState (t : T) : System T :=
  let s := { s with stateRefs := update s.stateRefs t (s.stateRefs t - 1) }
  if s.stateRefs t ≠ 0 then s
  else (onHandles s fun w => Handles.closeAll w t).setTable t fun _ => none

/-- `~Process`. -/
def deleteProcess : System T :=
  let t := process.sharedState
  let s := cleanupProcess s process
  let s := match process.stack with
    | some (base, pages) => s.setTable t (unmapRangeFrom (s.pageTable t) base pages)
    | none => s
  let s := releaseSharedState s t
  { s with processes := update s.processes process.pid none }

/-- A program is started in the fresh shared state `t`; `sys_spawn` hands files on, but no
shared memory. -/
def spawn (t : T) : System T :=
  let (pid, s) := allocatePID s
  newProcess s ⟨pid, t, some (Vma.userStackBase, 32)⟩

/-- The constructor of a thread in the shared state of another: the space for its stack is
reserved, and a stack it gets is mapped over what is there. -/
def newThread (thread : Process T) (stackSize : Nat) : System T :=
  let t := thread.sharedState
  let s := { s with
    processes := update s.processes thread.pid (some thread)
    stateRefs := update s.stateRefs t (s.stateRefs t + 1)
    mmapBase := update s.mmapBase t (add64 (s.mmapBase t) stackSize) }
  match thread.stack with
  | some (base, pages) => s.setTable t (unmapRangeFrom (s.pageTable t) base pages)
  | none => s

/-- `sys_thread_create`: a thread that lacks its stack or cannot be registered is deleted. -/
def sysThreadCreate (stackSize : Nat) (stack registered : Bool) : System T :=
  let t := process.sharedState
  let stackSize := Vma.stackBytes stackSize
  if stackSize < 4 * pageSize ∨ 256 * pageSize < stackSize then s
  else
    let (pid, s) := allocatePID s
    let thread : Process T :=
      ⟨pid, t, if stack then some (s.mmapBase t, stackSize / pageSize) else none⟩
    let s := newThread s thread stackSize
    if stack && registered then s else deleteProcess s thread

/-- The number of pages of the lower half, which `cloneAddressSpaceFrom` walks. -/
def lowerHalf : Nat := 2 ^ 35

/-- `sys_fork` into the fresh shared state `t`.  The child gets the shared pages and the
handles of its parent; a child that cannot be completed is deleted. -/
def sysFork (parent : Process T) (t : T) (completed : Bool) : System T :=
  let (pid, s) := allocatePID s
  let child : Process T := ⟨pid, t, none⟩
  let s := newProcess s child
  if completed then
    let s := s.setTable t fun page =>
      if page < lowerHalf then s.pageTable parent.sharedState page else none
    onHandles s fun w => Handles.cloneFrom w t parent.sharedState false false
  else deleteProcess s child

/-! ## Runs -/

/-- What a process asks for, or what happens to it. -/
inductive LifeOp (T : Type)
  | spawn (t : T)
  | sharedAlloc (pid size : Nat) (phys : Option Nat) (node : Bool)
  | sharedMap (pid : Nat) (handle : Handle) (mapped : Nat → Bool)
  | sharedFree (pid : Nat) (handle : Handle)
  | close (pid : Nat) (handle : Handle)
  | dup (pid : Nat) (handle : Handle)
  | dup2 (pid : Nat) (oldHandle newHandle : Handle)
  | munmap (pid addr length : Nat)
  | threadCreate (pid stackSize : Nat) (stack registered : Bool)
  | fork (pid : Nat) (t : T) (completed : Bool)
  | exit (pid : Nat)

/-- What the process with a given pid does; without one nothing happens. -/
def System.asProcess (pid : Nat) (act : Process T → System T) : System T :=
  match s.processes pid with
  | some process => act process
  | none => s

def step : LifeOp T → System T
  | .spawn t => spawn s t
  | .sharedAlloc pid size phys node =>
    s.asProcess pid fun process => (sysSharedAlloc s process size phys node).2
  | .sharedMap pid handle mapped =>
    s.asProcess pid fun process => (sysSharedMap s process handle mapped).2
  | .sharedFree pid handle => s.asProcess pid fun process => (sysSharedFree s process handle).2
  | .close pid handle => s.asProcess pid fun process => sysClose s process handle
  | .dup pid handle => s.asProcess pid fun process => sysDup s process handle
  | .dup2 pid oldHandle newHandle =>
    s.asProcess pid fun process => sysDup2 s process oldHandle newHandle
  | .munmap pid addr length => s.asProcess pid fun process => sysMunmap s process addr length
  | .threadCreate pid stackSize stack registered =>
    s.asProcess pid fun process => sysThreadCreate s process stackSize stack registered
  | .fork pid t completed => s.asProcess pid fun process => sysFork s process t completed
  | .exit pid => s.asProcess pid fun process => deleteProcess s process

end

end InstantOS.SharedMemory

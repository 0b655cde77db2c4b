import InstantOS.Process.Regions

/-!
# The memory calls of a process

The embedding of `src/cpu/syscall/mem.cpp` and of what fork, thread creation and
exit do to an address space (`cloneAddressSpaceFrom`, `mmapCloneRegionsFrom`, the
two `Process` constructors, `~Process`, `releaseSharedState`), on the region list and the
present pages of `Regions`.

A call leaves a new address space and the events another part of the system can
see: the writes to backing vnodes, in the order they are made, and the pages that
are dropped.  What the calls learn from outside (the file behind a descriptor, its
size, the pages of a GPU buffer, whether an allocation succeeds) are arguments.
-/

namespace InstantOS.Vma

open Pmm (pageSize)

variable {File Obj : Type}

-- the files that can be written, what `kmalloc` grants, and the address space
variable (canWrite : File → Bool) (allocs : NodeAllocs) (s : Space File Obj)

/-- The errors of the calls. -/
inductive SysErr
  | invalid
  | noMemory
  | badFile
  | device
deriving DecidableEq, Repr

/-- The file, the position in it and the number of bytes a dropped page had in the
file window of a shared mapping. -/
structure SharedBytes (File : Type) where
  file : File
  pos : Nat
  bytes : Nat
deriving DecidableEq, Repr

/-- What becomes visible outside the address space. -/
inductive Event (File : Type)
  | store (va i : Nat) (byte : BitVec 8)
  | write (file : File) (pos : Nat) (bytes : List (BitVec 8))
  | drop (va : Nat) (backing : Option (SharedBytes File))
deriving DecidableEq, Repr

/-- What a call returns and leaves. -/
structure Call (File Obj : Type) where
  result : Except SysErr Nat
  space : Space File Obj
  events : List (Event File)

/-! ## Write back -/

/-- The pages of a region in the order the loops visit them. -/
def VmaRegion.pageAddrs (r : VmaRegion File Obj) : List Nat :=
  (List.range ((r.stop - r.start + (pageSize - 1)) / pageSize)).map fun k => r.start + k * pageSize

/-- The write `vmaWritebackRegion` makes for one page. -/
def writebackPage (r : VmaRegion File Obj) (file : File) (va : Nat) : Option (Event File) :=
  match s.pages (va % 2 ^ 48) with
  | none => none
  | some page =>
    if r.filePos va < r.mappedEnd then
      some (.write file (r.filePos va) ((List.range (r.window va)).map page.bytes))
    else none

/-- `vmaWritebackRegion`; `canWrite` tells which vnodes have a write operation. -/
def vmaWritebackRegion (r : VmaRegion File Obj) : List (Event File) :=
  match r.file with
  | none => []
  | some file =>
    if r.shared && protWrite r.prot && canWrite file then
      r.pageAddrs.filterMap (writebackPage s r file)
    else []

/-- `mmapSyncRange`. -/
def mmapSyncRange (start length : Nat) : List (Event File) :=
  if length = 0 then []
  else
    let stop := add64 start length
    (s.regions.filter fun r => decide (r.start < stop ∧ start < r.stop)).flatMap
      (vmaWritebackRegion canWrite s)

/-! ## Dropping pages -/

/-- The window of the region a page belongs to, if that is a shared mapping of a
file: positions `fileOffset .. fileOffset + fileLength`. -/
def sharedBytes (regions : List (VmaRegion File Obj)) (va : Nat) : Option (SharedBytes File) :=
  match Base.covering VmaRegion.start VmaRegion.stop regions va with
  | none => none
  | some r =>
    match r.file with
    | none => none
    | some file =>
      if r.shared then
        some { file := file, pos := r.fileOffset + (va - r.start)
               bytes := min (r.fileLength - (va - r.start)) pageSize }
      else none

/-- The `pages` pages from `addr` on, by the bits of their addresses that a walk reads. -/
def userPages (addr pages : Nat) : List Nat :=
  (List.range pages).map fun i => (addr + i * pageSize) % 2 ^ 48

/-- Takes pages out of the address space. -/
def Space.without (addrs : List Nat) : Space File Obj :=
  { s with pages := fun va => if va ∈ addrs then none else s.pages va }

theorem Space.without_of_absent {s : Space File Obj} {addrs : List Nat}
    (h : ∀ va ∈ addrs, s.pages va = none) : s.without addrs = s := by
  have hpages : (fun va => if va ∈ addrs then none else s.pages va) = s.pages := by
    funext va
    split
    · rename_i hva
      exact (h va hva).symm
    · rfl
  rw [Space.without, hpages]

/-- One drop for each of the pages that is present. -/
def Space.drops (addrs : List Nat) : List (Event File) :=
  (addrs.filter fun va => (s.pages va).isSome).map fun va => .drop va (sharedBytes s.regions va)

/-! ## The calls -/

/-- The number of pages of a length, computed in 64 bits. -/
def pageCount (length : Nat) : Nat := add64 length (pageSize - 1) / pageSize

/-- The placement the two mmap calls share: the fixed address or the cursor. -/
def mmapPlace (addr alignedLength : Nat) : Nat × Space File Obj :=
  if addr = 0 then reserveMmapRegion s alignedLength else (addr, s)

/-- The range the two mmap calls refuse. -/
def outsideUser (virt alignedLength : Nat) : Bool :=
  decide (userEnd ≤ virt ∨ add64 virt alignedLength < virt ∨ userEnd < add64 virt alignedLength)

/-- A fixed address replaces what is mapped there; the present pages and the regions of
the range go. -/
def Space.replaced (addr virt pages : Nat) : Space File Obj :=
  if addr = 0 then s
  else
    { s.without (userPages virt pages) with
      regions := mmapRemoveRange allocs.clearing s.regions virt (pages * pageSize) }

/-- The drops of `replaced`. -/
def Space.replacedDrops (addr virt pages : Nat) : List (Event File) :=
  if addr = 0 then [] else s.drops (userPages virt pages)

/-- The end of both mmap calls: the address if the region was added. -/
def Call.added (virt : Nat) (s : Space File Obj) (events : List (Event File))
    (regions : Bool × List (VmaRegion File Obj)) : Call File Obj :=
  ⟨if regions.1 then .ok virt else .error .noMemory, { s with regions := regions.2 }, events⟩

/-- `sys_mmap`. -/
def sysMmap (addr length prot : Nat) : Call File Obj :=
  if length = 0 then ⟨.error .invalid, s, []⟩
  else if addr ≠ 0 ∧ addr % pageSize ≠ 0 then ⟨.error .invalid, s, []⟩
  else if userEnd < length then ⟨.error .invalid, s, []⟩
  else
    let pages := pageCount length
    let alignedLength := pages * pageSize
    let virt := (mmapPlace s addr alignedLength).1
    let s := (mmapPlace s addr alignedLength).2
    if virt = 0 ∨ outsideUser virt alignedLength then ⟨.error .noMemory, s, []⟩
    else
      let t := s.replaced allocs addr virt pages
      Call.added virt t (s.replacedDrops addr virt pages)
        (mmapAddRegion allocs t.regions virt alignedLength prot)

/-- What a file descriptor leads to: the file, the size `stat` reports (`none` if it
fails), and for a DRM node the buffer object with the contents of its pages that
`drm::resolveMmap` finds (`none` if it fails). -/
structure Descriptor (File Obj : Type) where
  file : File
  size : Option (BitVec 64)
  drm : Option (Option (Obj × (Nat → Nat → BitVec 8)))

/-- `fileLength`: the bytes of the file from `offset` on. -/
def Descriptor.fileLength (d : Descriptor File Obj) (offset : Nat) : Nat :=
  match d.size with
  | none => 0
  | some size => if offset < size.toNat then size.toNat - offset else 0

/-- The leaf flags of a buffer object's pages. -/
def objectPageFlags (prot : Nat) : LeafFlags :=
  { readWrite := protWrite prot, cow := false, sharedFrame := true }

/-- Maps the pages of a buffer object from `virt` on. -/
def Space.mapObject (virt pages prot : Nat) (contents : Nat → Nat → BitVec 8) : Space File Obj :=
  { s with
    pages := fun va =>
      if va ∈ userPages virt pages then
        some { bytes := contents ((va - virt) / pageSize), flags := objectPageFlags prot }
      else s.pages va }

/-- The branch of `sys_mmap_file` for a buffer object: its pages are mapped first and
go again if the region cannot be added. -/
def mmapBuffer (virt pages prot : Nat)
    (events : List (Event File)) (object : Obj) (contents : Nat → Nat → BitVec 8) :
    Call File Obj :=
  let s := s.mapObject virt pages prot contents
  match mmapAddObjectRegion allocs s.regions virt (pages * pageSize) prot (some object) with
  | (true, regions) => ⟨.ok virt, { s with regions := regions }, events⟩
  | (false, regions) =>
    let s := { s with regions := regions }
    ⟨.error .noMemory, s.without (userPages virt pages), events ++ s.drops (userPages virt pages)⟩

/-- The end of `sys_mmap_file`, once the range is empty: the mapping of a buffer object or of
the file. -/
def mmapBacked (virt pages prot : Nat) (shared : Bool)
    (d : Descriptor File Obj) (offset : Nat) (events : List (Event File)) : Call File Obj :=
  match d.drm with
  | some none => ⟨.error .device, s, events⟩
  | some (some (object, contents)) => mmapBuffer allocs s virt pages prot events object contents
  | none =>
    Call.added virt s events
      (mmapAddFileRegion allocs s.regions virt (pages * pageSize) prot (some d.file) offset
        (d.fileLength offset) shared)

/-- `sys_mmap_file` behind the test for `MAP_ANONYMOUS`; `shared` is the `MAP_SHARED`
flag, `fd` what the descriptor leads to. -/
def sysMmapFile
    (addr length prot : Nat) (shared : Bool) (fd : Option (Descriptor File Obj)) (offset : Nat) :
    Call File Obj :=
  if length = 0 then ⟨.error .invalid, s, []⟩
  else if addr ≠ 0 ∧ addr % pageSize ≠ 0 then ⟨.error .invalid, s, []⟩
  else if offset % pageSize ≠ 0 then ⟨.error .invalid, s, []⟩
  else if userEnd < length then ⟨.error .invalid, s, []⟩
  else
    match fd with
    | none => ⟨.error .badFile, s, []⟩
    | some d =>
      let pages := pageCount length
      let alignedLength := pages * pageSize
      let virt := (mmapPlace s addr alignedLength).1
      let s := (mmapPlace s addr alignedLength).2
      if virt = 0 ∨ outsideUser virt alignedLength then ⟨.error .noMemory, s, []⟩
      else
        -- unlike `sys_mmap`, the replaced range is written back before its pages go
        let writes := if addr = 0 then [] else mmapSyncRange canWrite s virt alignedLength
        mmapBacked allocs (s.replaced allocs addr virt pages) virt pages prot shared d offset
          (writes ++ s.replacedDrops addr virt pages)

/-- The argument test of `sys_msync`, `sys_mprotect` and `sys_munmap`. -/
def badRange (addr length : Nat) : Bool :=
  decide (addr = 0 ∨ length = 0 ∨ addr % pageSize ≠ 0)

/-- The length in bytes these calls work on, `pages * PAGE_SIZE` in 64 bits. -/
def rangeBytes (length : Nat) : Nat := pageCount length * pageSize % 2 ^ 64

/-- `sys_msync`. -/
def sysMsync (addr length : Nat) : Call File Obj :=
  if badRange addr length then ⟨.error .invalid, s, []⟩
  else ⟨.ok 0, s, mmapSyncRange canWrite s addr (rangeBytes length)⟩

/-- `pageFlagsForProtection(prot, true)`. -/
def pageFlagsForProtection (prot : Nat) : LeafFlags :=
  let prot := if prot = 0 then 3 else prot
  { readWrite := protWrite prot, cow := false, sharedFrame := false }

/-- The page loop of `sys_mprotect`: a present page of the range first leaves copy-on-write and
then gets exactly the new flags. -/
def Space.protectPages (addr pages prot : Nat) (va : Nat) : Option Page :=
  if va ∈ userPages addr pages then
    (s.pages va).map fun page => { page with flags := pageFlagsForProtection prot }
  else s.pages va

/-- `sys_mprotect`. -/
def sysMprotect (addr length prot : Nat) : Call File Obj :=
  if badRange addr length then ⟨.error .invalid, s, []⟩
  else
    ⟨.ok 0,
      { s with
        pages := s.protectPages addr (pageCount length) prot
        regions := (mmapProtectRange allocs s.regions addr (rangeBytes length) prot).2 },
      []⟩

/-- `sys_munmap`. -/
def sysMunmap (addr length : Nat) : Call File Obj :=
  if badRange addr length then ⟨.error .invalid, s, []⟩
  else
    let dropped := userPages addr (pageCount length)
    ⟨.ok 0,
      { s.without dropped with
        regions := mmapRemoveRange allocs s.regions addr (rangeBytes length) },
      mmapSyncRange canWrite s addr (rangeBytes length) ++ s.drops dropped⟩

/-! ## Processes and threads -/

/-- `USER_STACK_TOP`. -/
def userStackTop : Nat := 0x7FFFFFFFE000

/-- The lowest address of the main stack, `USER_STACK_PAGES` below its top. -/
def userStackBase : Nat := userStackTop - 32 * pageSize

/-- The flags of the stacks the kernel maps. -/
def stackPageFlags : LeafFlags :=
  { readWrite := true, cow := false, sharedFrame := false }

/-- A zeroed stack page. -/
def stackPage : Page := { bytes := fun _ => 0, flags := stackPageFlags }

/-- Maps a zeroed stack of `pages` pages from `base` on. -/
def Space.mapStack (base pages : Nat) : Space File Obj :=
  { s with
    pages := fun va => if va ∈ userPages base pages then some stackPage else s.pages va }

/-- A new process: the pages of its image, the main stack, no regions and the cursor
at its start. -/
def Space.load (image : Nat → Option Page) : Space File Obj :=
  Space.mapStack { regions := [], mmapBase := mmapBaseDefault, pages := image } userStackBase 32

/-- The constructor of a thread.  The stack is reserved first; without memory for it
nothing is mapped (`stack = false`), and a thread that cannot be registered takes its
stack along when it is deleted. -/
def threadStack (stackSize : Nat) (stack registered : Bool) : Space File Obj :=
  let (base, s) := reserveMmapRegion s stackSize
  let pages := alignUp stackSize pageSize / pageSize
  if !stack then s
  else if registered then s.mapStack base pages
  else s.without (userPages base pages)

/-- The size `sys_thread_create` gives a stack, 16 pages if the caller names none. -/
def stackBytes (stackSize : Nat) : Nat :=
  alignUp (if stackSize = 0 then 16 * pageSize else stackSize) pageSize

/-- `sys_thread_create`: the size of the stack is a number of pages between 4 and 256. -/
def sysThreadCreate (stackSize : Nat) (stack registered : Bool) :
    Except SysErr Unit × Space File Obj :=
  let stackSize := stackBytes stackSize
  if stackSize < 4 * pageSize ∨ 256 * pageSize < stackSize then (.error .invalid, s)
  else
    (if stack && registered then .ok () else .error .noMemory,
      threadStack s stackSize stack registered)

/-- What `cloneAddressSpaceFrom` makes of a page of the parent, and of the child's page
for it: a writable private page becomes copy-on-write, except on the stack. -/
def cloneFlags (va : Nat) (flags : LeafFlags) : LeafFlags :=
  if flags.sharedFrame then flags
  else if userStackBase ≤ va ∧ va < userStackTop then flags
  else if flags.readWrite || flags.cow then { flags with readWrite := false, cow := true }
  else flags

/-- The parent's pages after the walk has reached `bound`. -/
def Space.downgraded (bound : Nat) : Space File Obj :=
  { s with
    pages := fun va =>
      if va < bound then (s.pages va).map fun page =>
        { page with flags := cloneFlags va page.flags }
      else s.pages va }

/-- `sys_fork`: the parent and, if every allocation succeeds, the child.  A failed
fork has walked the parent's pages up to `stopped`.  The child gets the pages and the
region list; its cursor is that of a new `ProcessSharedState`. -/
def sysFork (stopped : Option Nat) : Space File Obj × Option (Space File Obj) :=
  match stopped with
  | some bound => (s.downgraded bound, none)
  | none =>
    let parent := s.downgraded userEnd
    (parent, some { parent with mmapBase := mmapBaseDefault })

/-- `releaseSharedState` of the last thread of a process writes back and frees the address
space.  `pages` lists the present pages. -/
def releaseSharedState (pages : List Nat) : List (Event File) :=
  s.regions.flatMap (vmaWritebackRegion canWrite s) ++ s.drops pages

/-! ## One call -/

/-- A call of a thread, a fault it takes, or a thread it creates, with what the call
learns from outside. -/
inductive MemCall (File Obj : Type)
  | mmap (allocs : NodeAllocs) (addr length prot : Nat)
  | mmapFile (allocs : NodeAllocs) (addr length prot : Nat) (shared : Bool)
      (fd : Option (Descriptor File Obj)) (offset : Nat)
  | msync (addr length : Nat)
  | mprotect (allocs : NodeAllocs) (addr length prot : Nat)
  | munmap (allocs : NodeAllocs) (addr length : Nat)
  | fault (read : File → Nat → Nat → List (BitVec 8)) (frame : Bool) (addr : Nat)
  | thread (stackSize : Nat) (stack registered : Bool)

/-- What the call returns and leaves. -/
def MemCall.run : MemCall File Obj → Call File Obj
  | mmap allocs addr length prot => sysMmap allocs s addr length prot
  | mmapFile allocs addr length prot shared fd offset =>
    sysMmapFile canWrite allocs s addr length prot shared fd offset
  | msync addr length => sysMsync canWrite s addr length
  | mprotect allocs addr length prot => sysMprotect allocs s addr length prot
  | munmap allocs addr length => sysMunmap canWrite allocs s addr length
  | fault read frame addr =>
    let (handled, s) := handleDemandFault read frame s addr
    ⟨if handled then .ok 0 else .error .invalid, s, []⟩
  | thread stackSize stack registered =>
    let (result, s) := sysThreadCreate s stackSize stack registered
    ⟨result.map fun _ => 0, s, []⟩

end InstantOS.Vma

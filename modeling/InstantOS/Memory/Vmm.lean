import InstantOS.Base.Command
import InstantOS.Memory.Pmm

/-!
# The virtual memory manager

The embedding of `src/cpu/memory/vmm.cpp`: four-level x86-64 page tables and
the operations that edit them.  A table is one physical frame of 512 words, so
the machine keeps one memory for tables and data alike, indexed by frame and
word.  `PageTable*` becomes a frame number (`ADDR_MASK` is how the source gets
one out of an entry) and the null pointer is frame 0.

Reads and writes of a frame go to physical memory.  The source reaches it
through the identity map or the direct map (`PhysToVirt`), which are the same
words.  Cached translations (`TLB::shootdown`, `invlpg`) are not part of the
model.

The fields of `Trace` record calls and are read by no operation.
-/

namespace InstantOS.Vmm

/-- A page-table entry. -/
abbrev Entry := BitVec 64

/-- A position in a table of 512 entries. -/
abbrev Index := BitVec 9

/-- A physical frame number: a page-aligned address below 2^52. -/
abbrev Frame := BitVec 40

/-! ## Entry bits -/

def present : Entry := 0x1#64
def readWrite : Entry := 0x2#64
def userSuper : Entry := 0x4#64
def largePage : Entry := 0x80#64
/-- `kPrivateTable`: the table below belongs to this address space. -/
def privateTable : Entry := 0x200#64
/-- `kSharedFrame`: a leaf whose frame belongs to a manager. -/
def sharedFrame : Entry := 0x800#64
def noExecute : Entry := 0x8000000000000000#64

def addrMask : BitVec 64 := 0x000FFFFFFFFFF000#64
/-- The address bits of a 1 GiB leaf. -/
def gibMask : BitVec 64 := 0x000FFFFFC0000000#64
/-- The address bits of a 2 MiB leaf. -/
def mibMask : BitVec 64 := 0x000FFFFFFFE00000#64
def pageMask : BitVec 64 := 0xFFF#64

/-- `e & flag` as a condition. -/
def has (e flag : Entry) : Bool := e &&& flag != 0#64

/-- The frame an entry names, `e & ADDR_MASK` as a frame number. -/
def frameOf (e : Entry) : Frame := e.extractLsb' 12 40

/-- The physical address of a frame. -/
def addrOf (f : Frame) : BitVec 64 := f.setWidth 64 <<< 12

/-- The frame that holds a physical address. -/
def frameOfPhys (phys : Nat) : Frame := BitVec.ofNat 40 (phys / Pmm.pageSize)

def pml4Index (va : BitVec 64) : Index := (va >>> 39).setWidth 9
def pdptIndex (va : BitVec 64) : Index := (va >>> 30).setWidth 9
def pdIndex (va : BitVec 64) : Index := (va >>> 21).setWidth 9
def ptIndex (va : BitVec 64) : Index := (va >>> 12).setWidth 9

/-- The indices `0 .. 511` in the order of the source's loops. -/
def indices : List Index := (List.range 512).map (BitVec.ofNat 9)

/-! ## The machine -/

/-- What was called so far. -/
structure Trace where
  /-- table frames that `AllocTable` returned and `free_table` has not freed -/
  tables : List Frame
  /-- whether an `AllocTable` returned null -/
  tableFailure : Bool
  /-- the calls of `PMM::FreeFrame` and `PMM::FreeFrames` -/
  freeCalls : List (BitVec 64 × Nat)
  /-- the pointers passed to `kfree` -/
  kfreeCalls : List (BitVec 64)

/-- Physical memory, the frame allocator and the static members of `VMM`.
`arenas` are the heap's arenas (base and size); `deferred` is the list of
detached tables of the `UnmapBatch` in progress, empty between calls. -/
structure Machine where
  mem : Frame → Index → BitVec 64
  pmm : Pmm.State
  kernelPml4 : Frame
  heapInitialized : Bool
  arenas : List (Nat × Nat)
  deferred : List Frame
  trace : Trace

/-- One entry of one table. -/
structure Slot where
  table : Frame
  index : Index
deriving DecidableEq

variable (m : Machine) (pml4 : Frame) (va : BitVec 64)

def Machine.entry (s : Slot) : Entry := m.mem s.table s.index

def Machine.setEntry (s : Slot) (e : Entry) : Machine :=
  { m with mem := fun f i => if f = s.table ∧ i = s.index then e else m.mem f i }

/-- Write a whole frame. -/
def Machine.setFrame (f : Frame) (words : Index → BitVec 64) : Machine :=
  { m with mem := fun g i => if g = f then words i else m.mem g i }

/-- `PMM::FreeFrames(addr, count)`; a count of one is `PMM::FreeFrame(addr)`. -/
def Machine.release (addr : BitVec 64) (count : Nat) : Machine :=
  { m with
    pmm := if count = 1 then Pmm.freeFrame m.pmm addr.toNat
      else Pmm.freeFrames m.pmm addr.toNat count
    trace := { m.trace with freeCalls := m.trace.freeCalls ++ [(addr, count)] } }

/-- `kfree(addr)`: what the heap does with the block is the heap's model. -/
def Machine.kfree (addr : BitVec 64) : Machine :=
  { m with trace := { m.trace with kfreeCalls := m.trace.kfreeCalls ++ [addr] } }

abbrev Op := Cmd Machine

def getEntry (s : Slot) : Op Entry := Cmd.read fun m => m.entry s

def putEntry (s : Slot) (e : Entry) : Op Unit := Cmd.update fun m => m.setEntry s e

/-- A pointer result that the caller checks: null makes it return early. -/
def nonNull (f : Frame) : Op Frame := if f = 0 then Cmd.stop else pure f

/-! ## Tables -/

/-- `PMM::KERNEL_HIGH_ALLOC_MIN`. -/
def kernelHighAllocMin : Nat := 0x400000 + 256 * 1024 * 1024

/-- The frame request of `alloc_zeroed_table`. -/
def allocTableFrame (s : Pmm.State) : Nat × Pmm.State :=
  let (phys, s') := Pmm.allocFramesAbove s 1 kernelHighAllocMin
  if phys = 0 then Pmm.allocFrame s' else (phys, s')

/-- `alloc_zeroed_table`, the body of `VMM::AllocTable`.  The alignment test of
the source cannot fail on a frame number. -/
def allocTable : Op Frame := fun m =>
  let (phys, pmm) := allocTableFrame m.pmm
  if phys = 0 then
    (none, { m with pmm := pmm, trace := { m.trace with tableFailure := true } })
  else
    let table := frameOfPhys phys
    (some table,
      { m.setFrame table (fun _ => 0#64) with
        pmm := pmm
        trace := { m.trace with tables := table :: m.trace.tables } })

/-- `heap_contains`. -/
def heapContains (addr : Nat) : Bool :=
  m.arenas.any fun a => a.1 ≤ addr && addr < a.1 + a.2

def isHeapTable (table : Frame) : Bool :=
  table != 0 && m.heapInitialized && heapContains m (addrOf table).toNat

/-- `frameIsKernelTable`: the kernel root or one of the tables of the two
levels below it. -/
def frameIsKernelTable (f : Frame) : Bool :=
  m.kernelPml4 != 0 && (m.kernelPml4 == f || indices.any fun i =>
        let e := m.mem m.kernelPml4 i
        has e present && !has e largePage && (frameOf e == f || indices.any fun j =>
              let e2 := m.mem (frameOf e) j
              has e2 present && !has e2 largePage && frameOf e2 == f))

/-- `free_table`. -/
def freeTable (table : Frame) : Machine :=
  if table = 0 then m
  else if !isHeapTable m table && frameIsKernelTable m table then m
  else if isHeapTable m table then m.kfree (addrOf table)
  else
    let freed := m.release (addrOf table) 1
    { freed with trace := { freed.trace with tables := freed.trace.tables.erase table } }

def isTableEmpty (table : Frame) : Bool :=
  indices.all fun i => !has (m.mem table i) present

/-- The entry of a cloned table: the flags of the old one, writable and
private. -/
def cloneEntry (clone : Frame) (e : Entry) : Entry :=
  addrOf clone ||| ((e &&& ~~~ addrMask) ||| readWrite ||| privateTable)

/-- `clone_table_if_needed`: the table below the entry, made private to this
address space first when it is shared. -/
def cloneTableIfNeeded (s : Slot) : Op Frame := do
  let e ← getEntry s
  let heapInitialized ← Cmd.read Machine.heapInitialized
  if !has e present || has e largePage then
    nonNull (frameOf e)
  else if !heapInitialized || has e privateTable then
    nonNull (frameOf e)
  else
    let clone ← allocTable
    Cmd.update fun m => m.setFrame clone fun i => m.mem (frameOf e) i &&& ~~~ privateTable
    putEntry s (cloneEntry clone e)
    pure clone

/-- The flags a large leaf hands on when it is split. -/
def splitFlags (e : Entry) : Entry := e &&& ~~~ addrMask &&& ~~~ largePage

/-- One leaf of a split large leaf. -/
def splitLeaf (baseMask step leafBits : BitVec 64) (e : Entry) (i : Index) : Entry :=
  ((e &&& baseMask) + i.setWidth 64 * step) ||| splitFlags e ||| present ||| leafBits

/-- The entry of the table that replaces a split large leaf. -/
def splitEntry (table : Frame) (e : Entry) : Entry :=
  addrOf table ||| splitFlags e ||| present ||| readWrite ||| userSuper ||| privateTable

/-- The common body of the two split functions: `step` is the size of one new
leaf, `leafBits` what marks it as large. -/
def splitLarge (baseMask step leafBits : BitVec 64) (s : Slot) : Op Frame := do
  let e ← getEntry s
  if e &&& (present ||| largePage) ≠ present ||| largePage then
    nonNull (frameOf e)
  else
    let table ← allocTable
    Cmd.update fun m => m.setFrame table (splitLeaf baseMask step leafBits e)
    putEntry s (splitEntry table e)
    pure table

def splitLargePdptEntry : Slot → Op Frame := splitLarge gibMask 0x200000#64 largePage

def splitLargePdEntry : Slot → Op Frame := splitLarge mibMask 0x1000#64 0#64

/-! ## Mapping -/

/-- A missing table is allocated, with `fresh` as the bits of the new entry; a
present entry gets the bits `promote`. -/
def ensureEntry (s : Slot) (fresh promote : Entry) : Op Unit := do
  let e ← getEntry s
  if !has e present then
    let table ← allocTable
    putEntry s (addrOf table ||| fresh)
  else
    putEntry s (e ||| promote)

/-- A table of level 3 or 2 on the way down: present, private, not large. -/
def openEntry (split : Slot → Op Frame) (fresh promote : Entry) (s : Slot) : Op Frame := do
  ensureEntry s fresh promote
  let e ← getEntry s
  if !has e largePage then
    let _ ← cloneTableIfNeeded s
  split s

/-- The way down to the last table, with writes allowed on all of it. -/
def openTables (fresh promote : Entry) (pml4 : Frame) (va : BitVec 64) : Op Frame := do
  let top : Slot := ⟨pml4, pml4Index va⟩
  ensureEntry top fresh promote
  let pdpt ← cloneTableIfNeeded top
  let pd ← openEntry splitLargePdptEntry fresh promote ⟨pdpt, pdptIndex va⟩
  openEntry splitLargePdEntry fresh promote ⟨pd, pdIndex va⟩

/-- The leaf that `MapPage` and `MapPageInto` store. -/
def leafValue (physAddr flags : BitVec 64) : Entry :=
  (physAddr &&& ~~~ pageMask) ||| (flags &&& ~~~ addrMask) ||| present

/-- `VMM::MapPageInto`.  Upper entries are promoted to the permissions of the
leaf; new tables are entered without the private-table bit. -/
def mapPageInto (va physAddr flags : BitVec 64) : Op Unit := do
  Cmd.require (pml4 != 0)
  let upperPromote := (flags &&& userSuper) ||| (flags &&& readWrite)
  let pt ← openTables (present ||| readWrite ||| userSuper) upperPromote pml4 va
  putEntry ⟨pt, ptIndex va⟩ (leafValue physAddr flags)

/-! ## Unmapping -/

/-- `UnmapBatch::finish`: the detached tables are freed. -/
def finishBatch : Machine :=
  { m.deferred.foldl freeTable m with deferred := [] }

/-- `UnmapBatch::deferFree`, with room for 32 tables. -/
def deferFree (table : Frame) : Machine :=
  let m := if m.deferred.length = 32 then finishBatch m else m
  { m with deferred := m.deferred ++ [table] }

/-- A present entry of level 3 or 2 on the way to a leaf: private and not
large from here on. -/
def descend (split : Slot → Op Frame) (s : Slot) : Op Frame := do
  let e ← getEntry s
  Cmd.require (has e present)
  if !has e largePage then
    let _ ← cloneTableIfNeeded s
  let e ← getEntry s
  if has e largePage then
    let _ ← split s
  let e ← getEntry s
  pure (frameOf e)

/-- The tables of levels 3, 2 and 1 on the way to a leaf. -/
def descendTo : Op (Frame × Frame × Frame) := do
  let top : Slot := ⟨pml4, pml4Index va⟩
  let e ← getEntry top
  Cmd.require (has e present)
  let pdpt ← cloneTableIfNeeded top
  let pd ← descend splitLargePdptEntry ⟨pdpt, pdptIndex va⟩
  let pt ← descend splitLargePdEntry ⟨pd, pdIndex va⟩
  pure (pdpt, pd, pt)

/-- An empty table is detached from its parent entry and put into the batch. -/
def detachIfEmpty (table : Frame) (s : Slot) (m : Machine) : Machine :=
  if isTableEmpty m table then deferFree (m.setEntry s 0#64) table else m

/-- `unmapLeaf`. -/
def unmapLeaf : Op Unit := do
  let (pdpt, pd, pt) ← descendTo pml4 va
  putEntry ⟨pt, ptIndex va⟩ 0#64
  Cmd.update (detachIfEmpty pt ⟨pd, pdIndex va⟩)
  Cmd.update (detachIfEmpty pd ⟨pdpt, pdptIndex va⟩)
  Cmd.update (detachIfEmpty pdpt ⟨pml4, pml4Index va⟩)

/-- `VMM::UnmapRangeFrom`. -/
def unmapRangeFrom (virtualBase : BitVec 64) (pageCount : Nat) : Machine :=
  if pml4 = 0 then m
  else
    finishBatch ((List.range pageCount).foldl (fun m i =>
      (unmapLeaf pml4 (virtualBase + BitVec.ofNat 64 (i * 4096))).exec m) m)

/-! ## Translation -/

/-- `VMM::VirtualToPhysicalIn`. -/
def virtualToPhysicalIn : BitVec 64 :=
  if pml4 = 0 then 0#64
  else
    let pml4e := m.mem pml4 (pml4Index va)
    if !has pml4e present then 0#64
    else
      let pdpte := m.mem (frameOf pml4e) (pdptIndex va)
      if !has pdpte present then 0#64
      else if has pdpte largePage then (pdpte &&& gibMask) ||| (va &&& 0x3FFFFFFF#64)
      else
        let pde := m.mem (frameOf pdpte) (pdIndex va)
        if !has pde present then 0#64
        else if has pde largePage then (pde &&& mibMask) ||| (va &&& 0x1FFFFF#64)
        else
          let pte := m.mem (frameOf pde) (ptIndex va)
          if !has pte present then 0#64
          else (pte &&& addrMask) ||| (va &&& pageMask)

/-- `VMM::VirtualToPhysical` under the root `cr3`: four levels of tables, with no
test for large pages. -/
def virtualToPhysical (initialized : Bool) (cr3 : Frame) (va : BitVec 64) : BitVec 64 :=
  if !initialized then 0#64
  else if cr3 = 0 then 0#64
  else
    let pml4e := m.mem cr3 (pml4Index va)
    if !has pml4e present then 0#64
    else
      let pdpte := m.mem (frameOf pml4e) (pdptIndex va)
      if !has pdpte present then 0#64
      else
        let pde := m.mem (frameOf pdpte) (pdIndex va)
        if !has pde present then 0#64
        else
          let pte := m.mem (frameOf pde) (ptIndex va)
          if !has pte present then 0#64
          else (pte &&& addrMask) ||| (va &&& pageMask)

/-- `VMM::IsMapped`. -/
def isMapped (initialized : Bool) (cr3 : Frame) (va : BitVec 64) : Bool :=
  virtualToPhysical m initialized cr3 va != 0#64

/-- `VMM::IsUserMapped` under the root `cr3`. -/
def isUserMapped (cr3 : Frame) (va : BitVec 64) : Bool :=
  let user (e : Entry) := e &&& (present ||| userSuper) == present ||| userSuper
  let pml4e := m.mem cr3 (pml4Index va)
  let pdpte := m.mem (frameOf pml4e) (pdptIndex va)
  let pde := m.mem (frameOf pdpte) (pdIndex va)
  let pte := m.mem (frameOf pde) (ptIndex va)
  cr3 != 0 && user pml4e && user pdpte &&
    (has pdpte largePage || (user pde && (has pde largePage || user pte)))

/-- The permissions `PermitsFaultedAccess` accumulates on its walk. -/
structure Access where
  writable : Bool
  user : Bool
  noExec : Bool
deriving DecidableEq

/-- One more entry on the walk. -/
def Access.meet (a : Access) (e : Entry) : Access :=
  ⟨a.writable && has e readWrite, a.user && has e userSuper, a.noExec || has e noExecute⟩

/-- The walk of `PermitsFaultedAccess` from the table `table` of `level` on;
`none` when it meets an entry that is not present. -/
def accessFrom (m : Machine) (va : BitVec 64) : Nat → Frame → Access → Option Access
  | 0, _, a => some a
  | level + 1, table, a =>
    let e := m.mem table ((va >>> (12 + 9 * level)).setWidth 9)
    if !has e present then none
    else
      if 0 < level && level < 3 && has e largePage then some (a.meet e)
      else accessFrom m va level (frameOf e) (a.meet e)

/-- `VMM::PermitsFaultedAccess`. -/
def permitsFaultedAccess (va errCode : BitVec 64) : Bool :=
  if pml4 = 0 || has errCode 0x28#64 then false
  else
    match accessFrom m va 4 pml4 ⟨true, true, false⟩ with
    | none => false
    | some a =>
      !(has errCode 0x2#64 && !a.writable) && !(has errCode 0x4#64 && !a.user) &&
        !(has errCode 0x10#64 && (a.noExec || (!has errCode 0x4#64 && a.user)))

/-! ## Teardown -/

/-- `isKernelInheritedIdentity`. -/
def isKernelInheritedIdentity (va pa : BitVec 64) : Bool :=
  m.kernelPml4 != 0 &&
    (virtualToPhysicalIn m m.kernelPml4 va &&& ~~~ pageMask) == (pa &&& ~~~ pageMask)

/-- The frames of a leaf of `level`: base address and count. -/
def leafExtent (e : Entry) (level : Nat) : Option (BitVec 64 × Nat) :=
  if level = 3 && has e largePage then some (e &&& gibMask, 512 * 512)
  else if level = 2 && has e largePage then some (e &&& mibMask, 512)
  else if level = 1 then some (e &&& addrMask, 1)
  else none

/-- `freeMappedFrames`. -/
def freeMappedFrames (e : Entry) (level : Nat) (va : BitVec 64) : Machine :=
  if !has e present || !has e userSuper || has e sharedFrame then m
  else
    match leafExtent e level with
    | none => m
    | some (pa, count) =>
      if isKernelInheritedIdentity m va pa then m else m.release pa count

/-- `freePrivateTable`. -/
def freePrivateTable : Nat → Machine → Frame → Entry → BitVec 64 → Machine
  | 0, m, _, _, _ => m
  | level + 1, m, table, kernelEntry, vaBase =>
    if table = 0 then m
    else
      let kernelTable : Frame :=
        if has kernelEntry present && !has kernelEntry largePage then frameOf kernelEntry else 0
      indices.foldl (fun m i =>
        let e := m.mem table i
        let baseline := if kernelTable = 0 then 0#64 else m.mem kernelTable i
        if !has e present then m
        else if e &&& ~~~ privateTable = baseline &&& ~~~ privateTable then m
        else if !has e userSuper then m
        else
          let entryVa := vaBase ||| (i.setWidth 64 <<< (12 + 9 * level))
          if level = 0 || has e largePage then freeMappedFrames m e (level + 1) entryVa
          else
            let childKernelEntry :=
              if has baseline present && !has baseline largePage then baseline else 0#64
            freeTable (freePrivateTable level m (frameOf e) childKernelEntry entryVa) (frameOf e)) m

/-- `VMM::FreeAddressSpace`. -/
def freeAddressSpace : Machine :=
  if pml4 = 0 then m
  else
    let swept : Machine := (indices.take 256).foldl (fun m i =>
      let e := m.mem pml4 i
      let baseline := if m.kernelPml4 = 0 then 0#64 else m.mem m.kernelPml4 i
      if !has e present then m
      else if e &&& ~~~ privateTable = baseline &&& ~~~ privateTable then m
      else
        let vaBase := i.setWidth 64 <<< 39
        if has e largePage then freeMappedFrames m e 4 vaBase
        else freeTable (freePrivateTable 3 m (frameOf e) baseline vaBase) (frameOf e)) m
    freeTable swept pml4

end InstantOS.Vmm

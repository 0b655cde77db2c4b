import InstantOS.Base.Segments
import InstantOS.Memory.Pmm

/-!
# The region list of an address space

The embedding of the demand-paged mmap bookkeeping of
`src/cpu/process/process.cpp`: the list of `VmaRegion`s of a
`ProcessSharedState` with its edits (`vmaSplitAt`, `mmapAddRegion`,
`mmapAddFileRegion`, `mmapAddObjectRegion`, `mmapRemoveRange`,
`mmapProtectRange`), the cursor behind `reserveMmapRegion`, and
`handleDemandFault`, which fills a page when it is first touched.

Addresses, lengths and file positions are 64-bit words; every sum the source
forms is taken modulo `2 ^ 64`.  Each `new VmaRegion` of a call is an outcome
in `NodeAllocs`.  The page table appears as the partial map from page
addresses to the frame contents and leaf flags found there, and a frame that
`PMM::AllocFrame` yields as one more outcome.
-/

namespace InstantOS.Vma

open Pmm (pageSize)

/-- The end of the user half, `0x0000800000000000`. -/
def userEnd : Nat := 2 ^ 47

/-- 64-bit addition. -/
def add64 (a b : Nat) : Nat := (a + b) % 2 ^ 64

theorem add64_of_lt {a b : Nat} (h : a + b < 2 ^ 64) : add64 a b = a + b := Nat.mod_eq_of_lt h

/-- `alignUp`, for an alignment that is a power of two. -/
def alignUp (value alignment : Nat) : Nat :=
  add64 value (alignment - 1) / alignment * alignment

/-- `MemoryProtWrite` is set. -/
def protWrite (prot : Nat) : Bool := prot.testBit 1

/-- `struct VmaRegion`; `stop` is the source's `end`. -/
structure VmaRegion (File Obj : Type) where
  start : Nat
  stop : Nat
  prot : Nat
  file : Option File
  fileOffset : Nat
  fileLength : Nat
  shared : Bool
  object : Option Obj
deriving DecidableEq, Repr

/-- Whether each `new VmaRegion` of a call succeeds: those of the splits at the
two ends of the range an mmap call clears at a fixed address, those of the
splits of the edit itself, and the new node. -/
structure NodeAllocs where
  clearStart : Bool
  clearEnd : Bool
  atStart : Bool
  atEnd : Bool
  node : Bool
deriving DecidableEq, Repr

/-- Every allocation of the call succeeds. -/
def NodeAllocs.granted : NodeAllocs := ⟨true, true, true, true, true⟩

/-- The outcomes for the range that is cleared first. -/
def NodeAllocs.clearing (allocs : NodeAllocs) : NodeAllocs :=
  { allocs with atStart := allocs.clearStart, atEnd := allocs.clearEnd }

variable {File Obj : Type}

-- what `kmalloc` grants, and the regions of a process
variable (allocs : NodeAllocs) (list : List (VmaRegion File Obj))

/-! ## Edits of the list -/

/-- The two nodes `vmaSplitAt` makes of `r`. -/
def VmaRegion.cut (addr : Nat) (r : VmaRegion File Obj) : VmaRegion File Obj × VmaRegion File Obj :=
  let delta := addr - r.start
  ({ r with
      stop := addr
      fileLength := if r.file.isSome ∧ delta < r.fileLength then delta else r.fileLength },
    { r with
      start := addr
      fileOffset := add64 r.fileOffset delta
      fileLength := if delta < r.fileLength then r.fileLength - delta else 0 })

/-- `vmaSplitAt`.  Without memory for the second node the list stays as it is,
and the call fails if a region has `addr` inside. -/
def vmaSplitAt (alloc : Bool) (list : List (VmaRegion File Obj)) (addr : Nat) :
    Bool × List (VmaRegion File Obj) :=
  if alloc then (true, Base.cutFirst VmaRegion.start VmaRegion.stop (VmaRegion.cut addr) addr list)
  else (list.all fun r => !decide (r.start < addr ∧ addr < r.stop), list)

/-- The node lies inside the range; both edits below act on such nodes only. -/
def VmaRegion.within (start stop : Nat) (r : VmaRegion File Obj) : Bool :=
  decide (start ≤ r.start ∧ r.stop ≤ stop)

/-- `mmapRemoveRange`.  A failed split is ignored. -/
def mmapRemoveRange (start length : Nat) : List (VmaRegion File Obj) :=
  if length = 0 then list
  else
    let stop := add64 start length
    let list := (vmaSplitAt allocs.atStart list start).2
    let list := (vmaSplitAt allocs.atEnd list stop).2
    list.filter fun r => !r.within start stop

/-- The node update of `mmapProtectRange`. -/
def protectWithin (start stop prot : Nat) (r : VmaRegion File Obj) : VmaRegion File Obj :=
  if r.within start stop then { r with prot := prot } else r

/-- `mmapProtectRange`. -/
def mmapProtectRange (start length prot : Nat) : Bool × List (VmaRegion File Obj) :=
  if length = 0 then (false, list)
  else
    let stop := add64 start length
    match vmaSplitAt allocs.atStart list start with
    | (false, list) => (false, list)
    | (true, list) =>
      match vmaSplitAt allocs.atEnd list stop with
      | (false, list) => (false, list)
      | (true, list) => (true, list.map (protectWithin start stop prot))

/-- The common tail of the `mmapAdd` functions: what the range covered is
dropped, and the node goes to its place. -/
def mmapAddNode (length : Nat) (node : VmaRegion File Obj) : Bool × List (VmaRegion File Obj) :=
  let list := mmapRemoveRange allocs list node.start length
  if allocs.node then (true, Base.place VmaRegion.start node list) else (false, list)

/-- `mmapAddRegion`. -/
def mmapAddRegion (start length prot : Nat) : Bool × List (VmaRegion File Obj) :=
  if length = 0 then (false, list)
  else
    mmapAddNode allocs list length
      { start := start, stop := add64 start length, prot := prot, file := none
        fileOffset := 0, fileLength := 0, shared := false, object := none }

/-- `mmapAddFileRegion`. -/
def mmapAddFileRegion
    (start length prot : Nat) (file : Option File) (fileOffset fileLength : Nat) (shared : Bool) :
    Bool × List (VmaRegion File Obj) :=
  if length = 0 then (false, list)
  else
    mmapAddNode allocs list length
      { start := start, stop := add64 start length, prot := prot, file := file
        fileOffset := fileOffset, fileLength := fileLength, shared := shared, object := none }

/-- `mmapAddObjectRegion`. -/
def mmapAddObjectRegion
    (start length prot : Nat) (object : Option Obj) : Bool × List (VmaRegion File Obj) :=
  if length = 0 ∨ object.isNone then (false, list)
  else
    mmapAddNode allocs list length
      { start := start, stop := add64 start length, prot := prot, file := none
        fileOffset := 0, fileLength := 0, shared := true, object := object }

/-! ## The file window of a page -/

/-- The position in the file of the page at `va`, as `handleDemandFault` and
`vmaWritebackRegion` compute it. -/
def VmaRegion.filePos (r : VmaRegion File Obj) (va : Nat) : Nat :=
  add64 r.fileOffset (va - r.start)

/-- `mappedEnd`, the end of the file window. -/
def VmaRegion.mappedEnd (r : VmaRegion File Obj) : Nat := add64 r.fileOffset r.fileLength

/-- The bytes of the page at `va` that lie inside the file window, the `want`
and `n` of the two functions. -/
def VmaRegion.window (r : VmaRegion File Obj) (va : Nat) : Nat :=
  if r.filePos va < r.mappedEnd then min (r.mappedEnd - r.filePos va) pageSize else 0

/-! ## Pages -/

/-- The flags of a user leaf that the code below reads or sets. -/
structure LeafFlags where
  readWrite : Bool
  cow : Bool
  sharedFrame : Bool
deriving DecidableEq, Repr

/-- `vmaPageFlags`: no protection at all means read and write. -/
def vmaPageFlags (prot : Nat) : LeafFlags :=
  let prot := if prot = 0 then 3 else prot
  { readWrite := protWrite prot, cow := false, sharedFrame := false }

/-- A present page: the contents of its frame and its leaf flags. -/
structure Page where
  bytes : Nat → BitVec 8
  flags : LeafFlags

/-- `ProcessSharedState` without its handle table: the region list, the cursor
of `reserveMmapRegion` and the present pages by the low 48 bits of their
address, which are all that a walk of the page tables reads. -/
structure Space (File Obj : Type) where
  regions : List (VmaRegion File Obj)
  mmapBase : Nat
  pages : Nat → Option Page

/-- The initial value of `mmapBase`. -/
def mmapBaseDefault : Nat := 0x600000000000

/-- `reserveMmapRegion`. -/
def reserveMmapRegion (s : Space File Obj) (size : Nat) : Nat × Space File Obj :=
  (s.mmapBase, { s with mmapBase := add64 s.mmapBase (alignUp size pageSize) })

/-- The frame `handleDemandFault` prepares for `va`: what `read` returns for the
bytes inside the file window, and zeros behind it.  `read` is
`node->ops->read`, an empty result standing for an error or a missing
operation. -/
def VmaRegion.fill (read : File → Nat → Nat → List (BitVec 8)) (r : VmaRegion File Obj)
    (va : Nat) : Nat → BitVec 8 :=
  match r.file with
  | none => fun _ => 0
  | some file =>
    let got := if r.window va = 0 then [] else read file (r.window va) (r.filePos va)
    fun i => got.getD i 0

/-- `handleDemandFault`; `frame` tells whether `PMM::AllocFrame` yields one. -/
def handleDemandFault (read : File → Nat → Nat → List (BitVec 8)) (frame : Bool)
    (s : Space File Obj) (faultAddr : Nat) : Bool × Space File Obj :=
  let va := faultAddr / pageSize * pageSize
  if userEnd ≤ va then (false, s)
  else
    match Base.covering VmaRegion.start VmaRegion.stop s.regions va with
    | none => (false, s)
    | some region =>
      if (s.pages va).isSome then (true, s)
      else if region.object.isSome then (false, s)
      else if !frame then (false, s)
      else
        (true, { s with
          pages := Function.update s.pages va
            (some { bytes := region.fill read va, flags := vmaPageFlags region.prot }) })

end InstantOS.Vma

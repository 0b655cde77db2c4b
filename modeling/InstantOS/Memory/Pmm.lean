import Mathlib.Algebra.Ring.Nat

/-!
# The physical memory manager

The embedding of `src/cpu/memory/pmm.cpp`: a bitmap of 4 KiB frames, a
parallel table of 16-bit reference counts and a next-fit cursor.  The bitmap
keeps the source's shape, one 64-bit word for 64 frames, because the search
in `findFirstFree` skips whole words.

`s_bitmap` and `s_refcount` are memory that the manager places inside the RAM
it manages.  The model keeps their contents as two functions and their
addresses as two fields; the boot code of `<iboot/memory.hpp>` is not part of
the repository, so what it computes (`MemoryRegion::end`, the address and the
element size of the region array) is an input of `initializePmm`.
-/

namespace InstantOS.Pmm

/-- `PMM::PAGE_SIZE`. -/
def pageSize : Nat := 4096

/-- `UINT64_MAX`. -/
def uint64Max : Nat := 2 ^ 64 - 1

/-- The saturated reference count: a frame that reached it is pinned. -/
def pinned : Nat := 0xFFFF

/-- The boot loader's classification of a region. -/
inductive MemoryType
  | unusable
  | free
  | kernelCode
  | kernelData
  | bootloaderData
  | acpiReclaimable
  | acpiNvs
  | mmioRegion
  | reserved
deriving DecidableEq, Repr

/-- One descriptor of the boot memory map.  `endAddr` is what the loader's
`MemoryRegion::end()` returns. -/
structure MemoryRegion where
  base : Nat
  pages : Nat
  endAddr : Nat
  type : MemoryType
deriving DecidableEq, Repr

/-- The boot memory map: the regions, where their array lies and the size of
one element. -/
structure MemoryMap where
  regions : List MemoryRegion
  regionsAddr : Nat
  regionBytes : Nat

/-- The static members of `PMM`. -/
structure State where
  bitmap : Nat → BitVec 64
  refcount : Nat → Nat
  bitmapAddr : Nat
  refcountAddr : Nat
  bitmapSize : Nat
  totalFrames : Nat
  usedFrames : Nat
  usableFrames : Nat
  allocCursor : Nat
  initialized : Bool

/-! ## Bit-manipulation helpers -/

variable (s : State) (frame : Nat)

/-- The word of the bitmap with the bit of `frame` set and nothing else. -/
def frameBit : BitVec 64 := 1#64 <<< (frame % 64)

def setFrame : State :=
  { s with bitmap := fun i =>
      if i = frame / 64 then s.bitmap i ||| frameBit frame else s.bitmap i }

def clearFrame : State :=
  { s with bitmap := fun i =>
      if i = frame / 64 then s.bitmap i &&& ~~~ frameBit frame else s.bitmap i }

def testFrame : Bool :=
  (s.bitmap (frame / 64) &&& frameBit frame) != 0#64

def setRefcount (frame count : Nat) : State :=
  { s with refcount := fun f => if f = frame then count else s.refcount f }

/-- `for (frame = lo; frame < hi; frame++) body`. -/
def forFrames (lo hi : Nat) (body : State → Nat → State) (s : State) : State :=
  (List.range' lo (hi - lo)).foldl body s

/-! ## Initialize -/

/-- `align_up`: rounds up to a multiple of a power of two and saturates at
the last multiple a 64-bit value can hold. -/
def alignUp (value alignment : Nat) : Nat :=
  if alignment = 0 then value
  else if uint64Max - (alignment - 1) < value then
    uint64Max / alignment * alignment
  else (value + (alignment - 1)) / alignment * alignment

def rangesOverlap (aStart aEnd bStart bEnd : Nat) : Bool :=
  decide (aStart < bEnd) && decide (bStart < aEnd)

def rangeContains (outerStart outerEnd innerStart innerEnd : Nat) : Bool :=
  decide (outerStart ≤ innerStart) && decide (innerEnd ≤ outerEnd)

/-- The quantities `Initialize` computes before it looks for a place for its
metadata. -/
structure Layout where
  totalFrames : Nat
  bitmapSize : Nat
  bitmapBytesAligned : Nat
  metaBytes : Nat
  kernelStart : Nat
  kernelEnd : Nat
  mmapStart : Nat
  mmapEnd : Nat

def layout (map : MemoryMap) (kernelBase kernelSize : Nat) : Layout :=
  let highestAddr := map.regions.foldl (fun h r => max h r.endAddr) 0
  let totalFrames := alignUp highestAddr pageSize / pageSize
  let bitmapSize := (totalFrames + 63) / 64
  let bitmapBytesAligned := alignUp (bitmapSize * 8) 64
  { totalFrames := totalFrames
    bitmapSize := bitmapSize
    bitmapBytesAligned := bitmapBytesAligned
    metaBytes := bitmapBytesAligned + totalFrames * 2
    kernelStart := kernelBase / pageSize * pageSize
    kernelEnd := alignUp ((kernelBase + kernelSize) % 2 ^ 64) pageSize
    mmapStart := map.regionsAddr / pageSize * pageSize
    mmapEnd := alignUp
      ((map.regionsAddr + map.regions.length * map.regionBytes) % 2 ^ 64) pageSize }

/-- The room test repeated after each move of the candidate placement. -/
def fits (l : Layout) (regionEnd placementStart : Nat) : Bool :=
  decide (placementStart ≤ regionEnd) && decide (l.metaBytes ≤ regionEnd - placementStart)

/-- Moves a placement past a reserved range it overlaps; fails when the range
is not wholly inside the region. -/
def stepPast (l : Layout) (regionStart regionEnd start stop placementStart : Nat) : Option Nat :=
  if rangesOverlap placementStart (placementStart + l.metaBytes) start stop then
    if rangeContains regionStart regionEnd start stop then some (alignUp stop pageSize)
    else none
  else some placementStart

/-- The body of the placement loop for one region. -/
def placeIn (l : Layout) (candidate : MemoryRegion) : Option Nat :=
  if candidate.type = .free ∧ candidate.base ≤ candidate.endAddr ∧
      l.metaBytes ≤ candidate.endAddr - candidate.base then
    let first := max candidate.base pageSize
    if fits l candidate.endAddr first then
      match stepPast l candidate.base candidate.endAddr l.kernelStart l.kernelEnd first with
      | none => none
      | some second =>
        if fits l candidate.endAddr second then
          match stepPast l candidate.base candidate.endAddr l.mmapStart l.mmapEnd second with
          | none => none
          | some third => if fits l candidate.endAddr third then some third else none
        else none
    else none
  else none

/-- The first region with room for the metadata. -/
def findPlacement (l : Layout) (map : MemoryMap) : Option Nat :=
  map.regions.findSome? (placeIn l)

/-- Step 2, one frame of a free region: hand it to the allocator. -/
def releaseUsable : State :=
  if testFrame s frame then
    let s := clearFrame s frame
    { s with usedFrames := s.usedFrames - 1, usableFrames := s.usableFrames + 1 }
  else s

/-- Step 2, one region. -/
def releaseRegion (region : MemoryRegion) : State :=
  if region.type = .free then
    let startFrame := region.base / pageSize
    let endFrame := (startFrame + region.pages) % 2 ^ 64
    let endFrame :=
      if endFrame < startFrame ∨ s.totalFrames < endFrame then s.totalFrames else endFrame
    forFrames startFrame endFrame releaseUsable s
  else s

/-- Takes a frame out of the allocator without giving it a reference. -/
def reserveFrame : State :=
  if testFrame s frame then s
  else
    let s := setFrame s frame
    { s with usedFrames := s.usedFrames + 1 }

/-- Steps 3a to 3c: reserve the frames of `[start, stop)`. -/
def reserveFrames (start stop : Nat) (s : State) : State :=
  forFrames (start / pageSize) (min (stop / pageSize) s.totalFrames) reserveFrame s

/-- Step 4, one frame: a used frame gets a single owner. -/
def seedRefcount : State :=
  setRefcount s frame (if testFrame s frame then 1 else 0)

/-- The state in which step 1 leaves the manager: every tracked frame used. -/
def allUsed (l : Layout) (placementStart : Nat) : State :=
  { bitmap := fun i => if i < l.bitmapSize then BitVec.allOnes 64 else s.bitmap i
    refcount := s.refcount
    bitmapAddr := placementStart
    refcountAddr := placementStart + l.bitmapBytesAligned
    bitmapSize := l.bitmapSize
    totalFrames := l.totalFrames
    usedFrames := l.totalFrames
    usableFrames := 0
    allocCursor := s.allocCursor
    initialized := false }

/-- Steps 1 to 3: the bitmap before the reference counts are seeded. -/
def buildBitmap (map : MemoryMap) (l : Layout) (placementStart : Nat) : State :=
  let s := allUsed s l placementStart
  let s := map.regions.foldl releaseRegion s
  let s := reserveFrames l.kernelStart l.kernelEnd s
  let s := reserveFrames l.mmapStart l.mmapEnd s
  let s := reserveFrames (placementStart / pageSize * pageSize)
    (alignUp (placementStart + l.metaBytes) pageSize) s
  if 0 < s.totalFrames then reserveFrame s 0 else s

/-- `PMM::Initialize`, over whatever the two tables held before.  `none` is
`fail_bitmap_placement`, which halts the machine. -/
def initializePmm (map : MemoryMap) (kernelBase kernelSize : Nat) : Option State :=
  let l := layout map kernelBase kernelSize
  match findPlacement l map with
  | none => none
  | some placementStart =>
    let s := buildBitmap s map l placementStart
    let s := forFrames 0 s.totalFrames seedRefcount s
    some { s with allocCursor := 1, initialized := true }

/-! ## Searches -/

/-- The bit loop of `FindFirstFree` over word `i` with `n` bits to go; `some`
is a `return`. -/
def scanWord (s : State) (startFrame i : Nat) : Nat → Option Nat
  | 0 => none
  | n + 1 =>
    let bit := 63 - n
    let frame := i * 64 + bit
    if frame < startFrame then scanWord s startFrame i n
    else if s.totalFrames ≤ frame then some 0
    else if (s.bitmap i).getLsbD bit then scanWord s startFrame i n
    else some frame

/-- The word loop of `FindFirstFree` at word `i` with `n` words to go. -/
def scanFrom (s : State) (startFrame : Nat) : Nat → Nat → Nat
  | 0, _ => 0
  | n + 1, i =>
    if s.bitmap i = BitVec.allOnes 64 then scanFrom s startFrame n (i + 1)
    else
      match scanWord s startFrame i 64 with
      | some result => result
      | none => scanFrom s startFrame n (i + 1)

def findFirstFree (startFrame : Nat) : Nat :=
  scanFrom s startFrame (s.bitmapSize - startFrame / 64) (startFrame / 64)

/-- The run search that `FindContiguous`, `AllocFramesAbove` and
`AllocFramesBelow` repeat: `n` frames to go from `frame`, with the current run
starting at `runStart`.  A run never starts at frame 0, so 0 means failure. -/
def findRun (s : State) (count : Nat) : Nat → Nat → Nat → Nat → Nat
  | 0, _, _, _ => 0
  | n + 1, frame, runStart, runLen =>
    if testFrame s frame then findRun s count n (frame + 1) runStart 0
    else
      let runStart := if runLen = 0 then frame else runStart
      if runLen + 1 = count then runStart
      else findRun s count n (frame + 1) runStart (runLen + 1)

def findContiguous (count : Nat) : Nat :=
  if count = 0 then 0
  else if count = 1 then findFirstFree s 1
  else findRun s count (s.totalFrames - 1) 1 0 0

/-! ## Allocation -/

/-- Marks a frame used with one owner. -/
def takeFrame : State :=
  let s := setRefcount (setFrame s frame) frame 1
  { s with usedFrames := s.usedFrames + 1 }

/-- Takes `count` frames from `start` on; `start = 0` is a failed search. -/
def takeRun (start count : Nat) : Nat × State :=
  if start = 0 then (0, s)
  else (start * pageSize, forFrames start (start + count) takeFrame s)

def allocFrame : Nat × State :=
  if !s.initialized then (0, s)
  else
    let frame := findFirstFree s s.allocCursor
    let frame :=
      if frame = 0 ∧ 1 < s.allocCursor then findFirstFree s 1 else frame
    if frame = 0 then (0, s)
    else
      let s := takeFrame s frame
      let cursor := frame + 1
      (frame * pageSize,
        { s with allocCursor := if s.totalFrames ≤ cursor then 1 else cursor })

def allocFrames (count : Nat) : Nat × State :=
  if !s.initialized ∨ count = 0 then (0, s)
  else takeRun s (findContiguous s count) count

def allocFramesAbove (count minPhys : Nat) : Nat × State :=
  if !s.initialized ∨ count = 0 then (0, s)
  else
    let frame := max (minPhys / pageSize) 1
    takeRun s (findRun s count (s.totalFrames - frame) frame 0 0) count

def allocFramesBelow (count maxPhys : Nat) : Nat × State :=
  if !s.initialized ∨ count = 0 then (0, s)
  else
    let limit := min (maxPhys / pageSize) s.totalFrames
    takeRun s (findRun s count (limit - 1) 1 0 0) count

/-! ## Release and reference counting -/

/-- The body that `FreeFrame` and `FreeFrames` share: one reference of a used
frame is dropped, and the frame with it when it was the last one. -/
def dropFrame : State :=
  if !testFrame s frame then s
  else if s.refcount frame = pinned then s
  else if 1 < s.refcount frame then setRefcount s frame (s.refcount frame - 1)
  else
    let s := clearFrame (setRefcount s frame 0) frame
    { s with usedFrames := s.usedFrames - 1 }

def freeFrame (physAddr : Nat) : State :=
  if !s.initialized then s
  else
    let frame := physAddr / pageSize
    if frame = 0 ∨ s.totalFrames ≤ frame then s
    else dropFrame s frame

def freeFrames (physAddr count : Nat) : State :=
  if !s.initialized ∨ count = 0 then s
  else
    let startFrame := physAddr / pageSize
    forFrames startFrame (min ((startFrame + count) % 2 ^ 64) s.totalFrames) dropFrame s

/-- `IncRef` reaches the count of a used, tracked frame only. -/
def countable (physAddr : Nat) : Bool :=
  s.initialized && physAddr / pageSize != 0 &&
    decide (physAddr / pageSize < s.totalFrames) && testFrame s (physAddr / pageSize)

def incRef (physAddr : Nat) : State :=
  let frame := physAddr / pageSize
  if countable s physAddr ∧ s.refcount frame < pinned then
    setRefcount s frame (s.refcount frame + 1)
  else s

/-- The first frame of a `ReserveRange` call. -/
def reserveStart (physAddr : Nat) : Nat := physAddr / pageSize * pageSize / pageSize

/-- The frame past the last one of a `ReserveRange` call. -/
def reserveEnd (physAddr bytes : Nat) : Nat :=
  let stop := (physAddr + bytes) % 2 ^ 64
  let stop :=
    if stop < physAddr ∨ uint64Max - (pageSize - 1) < stop then
      uint64Max / pageSize * pageSize
    else (stop + pageSize - 1) / pageSize * pageSize
  min (stop / pageSize) s.totalFrames

def reserveRange (physAddr bytes : Nat) : State :=
  if !s.initialized ∨ bytes = 0 then s
  else forFrames (reserveStart physAddr) (reserveEnd s physAddr bytes) reserveFrame s

end InstantOS.Pmm

import InstantOS.Process.RegionMap

/-!
# Runs of region list edits

The edits of a region list in any order and number, starting from the empty list
of a new `ProcessSharedState`.  `sys_fork` copies the list verbatim and
`sys_exec` exchanges it for that of a new image, so the lists of all processes
are the lists of such runs.

`region_list_denotes` says what each edit does to the map of pages.  It needs
three things of the edits before it, none of which the code checks:

* the end of the range, `start + length`, is not taken modulo `2 ^ 64`
  (`sys_munmap`, `sys_mprotect` and the mapping of a DMA buffer do not look at it);
* no page of a file mapping has a file position behind `2 ^ 64` (`sys_mmap_file`
  takes any page-aligned offset);
* if the node of a new region is allocated, so are those of the splits before it:
  `mmapRemoveRange` ignores a failed split, and the regions then overlap.
-/

namespace InstantOS.Vma

open Pmm (pageSize)

variable {File Obj : Type}

/-- One call of an edit. -/
inductive RegionOp (File Obj : Type)
  | add (start length prot : Nat)
  | addFile (start length prot : Nat) (file : Option File) (fileOffset fileLength : Nat)
      (shared : Bool)
  | addObject (start length prot : Nat) (object : Option Obj)
  | remove (start length : Nat)
  | protect (start length prot : Nat)
deriving DecidableEq, Repr

namespace RegionOp

def start : RegionOp File Obj → Nat
  | add start _ _ | addFile start _ _ _ _ _ _ | addObject start _ _ _ | remove start _
  | protect start _ _ => start

def length : RegionOp File Obj → Nat
  | add _ length _ | addFile _ length _ _ _ _ _ | addObject _ length _ _ | remove _ length
  | protect _ length _ => length

/-- The list after the call. -/
def apply (allocs : NodeAllocs) (list : List (VmaRegion File Obj)) :
    RegionOp File Obj → List (VmaRegion File Obj)
  | add start length prot => (mmapAddRegion allocs list start length prot).2
  | addFile start length prot file fileOffset fileLength shared =>
    (mmapAddFileRegion allocs list start length prot file fileOffset fileLength shared).2
  | addObject start length prot object =>
    (mmapAddObjectRegion allocs list start length prot object).2
  | remove start length => mmapRemoveRange allocs list start length
  | protect start length prot => (mmapProtectRange allocs list start length prot).2

/-- `va` is an address of the range, without any wrap around. -/
def covers (op : RegionOp File Obj) (va : Nat) : Prop :=
  op.start ≤ va ∧ va < op.start + op.length
deriving Decidable

/-- What the call should make of a page of its range: the new backing, nothing, or
the page with its new protection.  The bytes of a page of a file mapping are those
of the file window from the page on, at most a page of them. -/
def target (va : Nat) (old : Option (PageView File Obj)) :
    RegionOp File Obj → Option (PageView File Obj)
  | add _ _ prot => some { prot := prot, backing := none, shared := false, object := none }
  | addFile start _ prot file fileOffset fileLength shared =>
    some
      { prot := prot
        backing := file.map fun f =>
          (f, fileOffset + (va - start), min (fileLength - (va - start)) pageSize)
        shared := shared, object := none }
  | addObject _ _ prot (some object) =>
    some { prot := prot, backing := none, shared := true, object := some object }
  | addObject _ _ _ none => old
  | remove _ _ => none
  | protect _ _ prot => old.map fun v => { v with prot := prot }

/-- The end of the file window is a word: `sys_mmap_file` takes the window from the
size of the file. -/
def WindowEnds : RegionOp File Obj → Prop
  | addFile _ _ _ _ fileOffset fileLength _ => fileOffset + fileLength < 2 ^ 64
  | _ => True

/-- No page of the mapping has a file position behind `2 ^ 64`. -/
def PositionsFit : RegionOp File Obj → Prop
  | addFile _ length _ file fileOffset _ _ => file.isSome → fileOffset + length ≤ 2 ^ 64
  | _ => True

/-- The arguments the system calls pass: 64-bit words and whole pages. -/
structure Proper (op : RegionOp File Obj) : Prop where
  start_lt : op.start < 2 ^ 64
  length_lt : op.length < 2 ^ 64
  start_aligned : op.start % pageSize = 0
  length_aligned : op.length % pageSize = 0
  windowEnds : op.WindowEnds

/-- Neither the range nor the file positions of the call wrap around. -/
structure Unwrapped (op : RegionOp File Obj) : Prop where
  range : op.start + op.length < 2 ^ 64
  positions : op.PositionsFit

/-- A call that makes a new node has made the nodes of its splits. -/
def Funded (allocs : NodeAllocs) : RegionOp File Obj → Prop
  | add _ _ _ | addFile _ _ _ _ _ _ _ | addObject _ _ _ _ =>
    allocs.node = true → allocs.atStart = true ∧ allocs.atEnd = true
  | remove _ _ | protect _ _ _ => True

theorem funded_granted (op : RegionOp File Obj) : op.Funded .granted := by
  cases op <;> simp [Funded, NodeAllocs.granted]

/-- The node a call adds, if it gets that far. -/
def node? : RegionOp File Obj → Option (VmaRegion File Obj)
  | add start length prot =>
    some { start := start, stop := add64 start length, prot := prot, file := none
           fileOffset := 0, fileLength := 0, shared := false, object := none }
  | addFile start length prot file fileOffset fileLength shared =>
    some { start := start, stop := add64 start length, prot := prot, file := file
           fileOffset := fileOffset, fileLength := fileLength, shared := shared, object := none }
  | addObject start length prot (some object) =>
    some { start := start, stop := add64 start length, prot := prot, file := none
           fileOffset := 0, fileLength := 0, shared := true, object := some object }
  | addObject _ _ _ none | remove _ _ | protect _ _ _ => none

variable {op : RegionOp File Obj} {node : VmaRegion File Obj}

theorem apply_zero (allocs : NodeAllocs) (list : List (VmaRegion File Obj))
    (h : op.length = 0) : op.apply allocs list = list := by
  cases op <;> simp_all [length, apply, mmapAddRegion, mmapAddFileRegion, mmapAddObjectRegion,
      mmapRemoveRange, mmapProtectRange]

/-- The three `mmapAdd` functions differ in the node only. -/
theorem apply_node (allocs : NodeAllocs) (list : List (VmaRegion File Obj))
    (hnode : op.node? = some node) (hzero : op.length ≠ 0) :
    op.apply allocs list = (mmapAddNode allocs list op.length node).2 := by
  cases op with
  | add | addFile =>
    cases hnode
    exact congrArg Prod.snd (if_neg hzero)
  | addObject start length prot object =>
    cases object with
    | none => cases hnode
    | some object =>
      cases hnode
      exact congrArg Prod.snd (if_neg fun h => h.elim hzero nofun)
  | remove | protect => cases hnode

/-- The node covers the range of the call, and it fits. -/
theorem node_fits (hproper : op.Proper) (hunwrapped : op.Unwrapped) (hnode : op.node? = some node) :
    node.start = op.start ∧ node.stop = op.start + op.length ∧ node.Fits := by
  have hstop := add64_of_lt hunwrapped.range
  have haligned := aligned_add hproper.start_aligned hproper.length_aligned
  have hplain : ∀ r : VmaRegion File Obj, r.start = op.start →
      r.stop = add64 op.start op.length → r.file = none → r.Fits := by
    intro r hstart hend hfile
    rw [hstop] at hend
    exact ⟨hstart ▸ hproper.start_aligned, hend ▸ haligned, hend ▸ hunwrapped.range,
      by simp [hfile], by simp [hfile]⟩
  cases op with
  | add start length prot =>
    cases hnode
    exact ⟨rfl, hstop, hplain _ rfl rfl rfl⟩
  | addFile start length prot file fileOffset fileLength shared =>
    cases hnode
    refine ⟨rfl, hstop, hproper.start_aligned, hstop ▸ haligned, hstop ▸ hunwrapped.range, ?_,
      fun _ => hproper.windowEnds⟩
    intro hfile
    have hpositions : fileOffset + length ≤ 2 ^ 64 := hunwrapped.positions hfile
    have hlength : add64 start length - start = length := by
      rw [show add64 start length = start + length from hstop, Nat.add_sub_cancel_left]
    simpa [hlength] using hpositions
  | addObject start length prot object =>
    cases object with
    | none => cases hnode
    | some object =>
      cases hnode
      exact ⟨rfl, hstop, hplain _ rfl rfl rfl⟩
  | remove | protect => cases hnode

/-- On its range the node shows what the call asks for. -/
theorem node_view (hproper : op.Proper) (hunwrapped : op.Unwrapped)
    (hnode : op.node? = some node) {va : Nat} (hva : op.covers va)
    (old : Option (PageView File Obj)) : op.target va old = some (node.view va) := by
  obtain ⟨hstart, hstop, hfits⟩ := node_fits hproper hunwrapped hnode
  cases op with
  | add start length prot =>
    cases hnode
    rfl
  | addFile start length prot file fileOffset fileLength shared =>
    cases hnode
    cases file with
    | none => rfl
    | some f =>
      have hin : start ≤ va ∧ va < add64 start length := by
        rw [show add64 start length = start + length from hstop]
        exact hva
      simp only [target, VmaRegion.view, hfits.filePos_eq rfl hin, hfits.window_eq rfl hin]
  | addObject start length prot object =>
    cases object with
    | none => cases hnode
    | some object =>
      cases hnode
      rfl
  | remove | protect => cases hnode

end RegionOp

open RegionOp

variable {list : List (VmaRegion File Obj)} {op : RegionOp File Obj}

/-- Every call keeps the list sorted, apart and aligned. -/
theorem Placed.apply (h : Placed list) {allocs : NodeAllocs}
    (hproper : op.Proper) (hunwrapped : op.Unwrapped)
    (hfunded : op.Funded allocs) : Placed (op.apply allocs list) := by
  by_cases hzero : op.length = 0
  · rw [apply_zero allocs list hzero]
    exact h
  cases hnode : op.node? with
  | some node =>
    obtain ⟨hstart, hstop, hfits⟩ := node_fits hproper hunwrapped hnode
    rw [apply_node allocs list hnode hzero]
    refine h.add hfits hproper.length_aligned hzero (by rw [hstart, hstop]) ?_
    cases op with
    | add | addFile | addObject => exact hfunded
    | remove | protect => cases hnode
  | none =>
    cases op with
    | add | addFile => cases hnode
    | addObject start length prot object =>
      cases object with
      | none => simpa [RegionOp.apply, mmapAddObjectRegion] using h
      | some object => cases hnode
    | remove start length =>
      exact h.remove hproper.start_aligned hproper.length_aligned hunwrapped.range allocs
    | protect start length prot =>
      exact h.protect hproper.start_aligned hproper.length_aligned hunwrapped.range allocs prot

/-- Every call changes the map on the pages of its range and nowhere else. -/
theorem Placed.pageAt_apply (h : Placed list)
    (hproper : op.Proper) (hunwrapped : op.Unwrapped) {va : Nat} (hva : va % pageSize = 0) :
    pageAt (op.apply .granted list) va =
      if op.covers va then op.target va (pageAt list va) else pageAt list va := by
  by_cases hzero : op.length = 0
  · rw [apply_zero .granted list hzero, if_neg (by rw [covers]; omega)]
  cases hnode : op.node? with
  | some node =>
    obtain ⟨hstart, hstop, hfits⟩ := node_fits hproper hunwrapped hnode
    rw [apply_node .granted list hnode hzero,
      h.pageAt_add hfits hproper.length_aligned (by rw [hstart, hstop]) hva, hstart]
    by_cases hin : op.covers va
    · rw [if_pos hin, node_view hproper hunwrapped hnode hin]
      exact if_pos hin
    · rw [if_neg hin]
      exact if_neg hin
  | none =>
    cases op with
    | add | addFile => cases hnode
    | addObject start length prot object =>
      cases object with
      | none => simp [RegionOp.apply, mmapAddObjectRegion, target]
      | some object => cases hnode
    | remove start length =>
      exact h.pageAt_remove hproper.start_aligned hproper.length_aligned
        hunwrapped.range rfl rfl hva
    | protect start length prot =>
      exact h.pageAt_protect hproper.start_aligned hproper.length_aligned hunwrapped.range prot hva

/-! ## Runs -/

/-- The lists that calls with `ok` produce. -/
inductive Edited (ok : NodeAllocs → RegionOp File Obj → Prop) : List (VmaRegion File Obj) → Prop
  | fresh : Edited ok []
  | step {list : List (VmaRegion File Obj)} (h : Edited ok list) (allocs : NodeAllocs)
      (op : RegionOp File Obj) (hop : ok allocs op) : Edited ok (op.apply allocs list)

/-- Sorted by start, pairwise disjoint, not empty and page-aligned. -/
structure Arranged (list : List (VmaRegion File Obj)) : Prop where
  sorted : list.Pairwise fun r t => r.start < t.start
  disjoint : list.Pairwise fun r t => r.stop ≤ t.start
  regions : ∀ r ∈ list, r.start < r.stop ∧ r.start % pageSize = 0 ∧ r.stop % pageSize = 0

/-- The call changes the map exactly on the pages of its range, and a fault on any
other page finds the same page and is answered alike. -/
structure Denotes (list : List (VmaRegion File Obj)) (op : RegionOp File Obj) : Prop where
  pages : ∀ va, va % pageSize = 0 →
    pageAt (op.apply .granted list) va =
      if op.covers va then op.target va (pageAt list va) else pageAt list va
  faults : ∀ (read : File → Nat → Nat → List (BitVec 8)) (frame : Bool) (s : Space File Obj)
    (faultAddr : Nat), s.regions = list → ¬ op.covers (faultAddr / pageSize * pageSize) →
      (handleDemandFault read frame { s with regions := op.apply .granted list } faultAddr).1 =
          (handleDemandFault read frame s faultAddr).1 ∧
        (handleDemandFault read frame { s with regions := op.apply .granted list }
            faultAddr).2.pages =
          (handleDemandFault read frame s faultAddr).2.pages

theorem Placed.arranged (h : Placed list) : Arranged list := ⟨h.sorted, h.ordered.apart, fun r hr =>
    ⟨h.ordered.nonempty r hr, (h.fits r hr).start_aligned, (h.fits r hr).stop_aligned⟩⟩

theorem Placed.denotes (h : Placed list) (hproper : op.Proper) (hunwrapped : op.Unwrapped) :
    Denotes list op := by
  refine ⟨fun va hva => h.pageAt_apply hproper hunwrapped hva, ?_⟩
  intro read frame s faultAddr hs hout
  have haligned : faultAddr / pageSize * pageSize % pageSize = 0 := Nat.mul_mod_left _ _
  have hpage := h.pageAt_apply hproper hunwrapped haligned
  rw [if_neg hout, ← hs] at hpage
  rw [← hs]
  exact handleDemandFault_congr read frame s _ faultAddr hpage

theorem Edited.placed
    (h : Edited (fun allocs op => op.Proper ∧ op.Unwrapped ∧ op.Funded allocs) list) :
    Placed list := by
  induction h with
  | fresh => exact placed_nil
  | step _ allocs op hop ih => exact ih.apply hop.1 hop.2.1 hop.2.2

/-- In every run of calls that do not wrap around and whose nodes are funded, the
list is arranged, and each such call whose nodes are allocated changes the map of
pages exactly on its range. -/
theorem region_list_denotes {list : List (VmaRegion File Obj)}
    (h : Edited (fun allocs op => op.Proper ∧ op.Unwrapped ∧ op.Funded allocs) list) :
    Arranged list ∧ ∀ op : RegionOp File Obj, op.Proper → op.Unwrapped → Denotes list op :=
  ⟨h.placed.arranged, fun _ hproper hunwrapped => h.placed.denotes hproper hunwrapped⟩

/-- Two pages of a shared mapping of a file of 5000 bytes. -/
def sampleFileMapping : RegionOp Unit Unit := .addFile 0x600000000000 8192 3 (some ()) 0 5000 true

/-- The first of them made read-only. -/
def sampleProtect : RegionOp Unit Unit := .protect 0x600000000000 4096 1

/-- The second page still has its 904 bytes of the file after the split. -/
theorem region_list_denotes_sample :
    pageAt (sampleProtect.apply .granted (sampleFileMapping.apply .granted []))
        (0x600000000000 + 4096) =
      some { prot := 3, backing := some ((), 4096, 904), shared := true, object := none } := by
  have hmapping : sampleFileMapping.Proper ∧ sampleFileMapping.Unwrapped :=
    ⟨⟨by decide, by decide, by decide, by decide, by simp [sampleFileMapping, WindowEnds]⟩,
      ⟨by decide, by simp [sampleFileMapping, PositionsFit]⟩⟩
  have hrun : Edited (fun allocs op => op.Proper ∧ op.Unwrapped ∧ op.Funded allocs)
      (sampleFileMapping.apply .granted []) :=
    .step .fresh .granted sampleFileMapping
      ⟨hmapping.1, hmapping.2, sampleFileMapping.funded_granted⟩
  have hdenotes := (region_list_denotes hrun).2 sampleProtect
    ⟨by decide, by decide, by decide, by decide, trivial⟩ ⟨by decide, trivial⟩
  rw [hdenotes.pages _ (by decide)]
  decide +kernel

/-- A mapping at the last page-aligned file offset: the window of the file is empty,
but the position of its second page wraps around to the start of the file. -/
def wrappingMapping : RegionOp Unit Unit :=
  .addFile 0x600000000000 8192 3 (some ()) 0xFFFFFFFFFFFFF000 0 true

/-- Making the first page read-only splits the mapping and changes the second page,
which is not in the range: it had a whole page of the file and has nothing of it
afterwards. -/
theorem split_drops_file_page : ¬ ∀ list : List (VmaRegion Unit Unit),
      Edited (fun allocs op => allocs = .granted ∧ op.Proper) list →
        Arranged list ∧ ∀ op : RegionOp Unit Unit, op.Proper → Denotes list op := by
  intro h
  have hmapping : wrappingMapping.Proper :=
    ⟨by decide, by decide, by decide, by decide, by simp [wrappingMapping, WindowEnds]⟩
  have hdenotes := (h _ (.step .fresh .granted wrappingMapping ⟨rfl, hmapping⟩)).2 sampleProtect
    ⟨by decide, by decide, by decide, by decide, trivial⟩
  have hpage := hdenotes.pages (0x600000000000 + 4096) (by decide)
  revert hpage
  decide +kernel

end InstantOS.Vma

import InstantOS.Process.Regions
import Mathlib.Order.Nat

/-!
# The region list as a map of pages

The region list stands for a partial map from page addresses to what a fault
there finds: the protection, the backing file with the position of the page in
it and the number of its bytes that come from the file, whether the mapping is
shared, and the object that owns the pages.  `pageAt` is that map.

Splitting a region must not be visible in it.  That rests on one fact about the
file window, `VmaRegion.window_eq`: as long as no file position of the region
passes `2 ^ 64`, the bytes a page has are those of the window from the page on.
`sys_mmap_file` does not ask for that, since it takes any page-aligned offset, and
behind the wrap the two halves of a split region disagree with the whole
(`split_drops_file_page`).
-/

namespace InstantOS.Vma

open VmaRegion Base

open Pmm (pageSize)

variable {File Obj : Type}

/-- What a page of a mapping is backed by. -/
structure PageView (File Obj : Type) where
  prot : Nat
  backing : Option (File × Nat × Nat)
  shared : Bool
  object : Option Obj
deriving DecidableEq, Repr

/-- The page at `va` of a region. -/
def VmaRegion.view (va : Nat) (r : VmaRegion File Obj) : PageView File Obj :=
  { prot := r.prot, backing := r.file.map fun f => (f, r.filePos va, r.window va)
    shared := r.shared, object := r.object }

/-- The map of pages a region list stands for. -/
def pageAt (list : List (VmaRegion File Obj)) (va : Nat) : Option (PageView File Obj) :=
  (Base.covering VmaRegion.start VmaRegion.stop list va).map (VmaRegion.view va)

/-! ## The file window -/

/-- A region with page-aligned ends whose file positions are 64-bit words. -/
structure VmaRegion.Fits (r : VmaRegion File Obj) : Prop where
  start_aligned : r.start % pageSize = 0
  stop_aligned : r.stop % pageSize = 0
  stop_lt : r.stop < 2 ^ 64
  file_positions : r.file.isSome → r.fileOffset + (r.stop - r.start) ≤ 2 ^ 64
  file_end : r.file.isSome → r.fileOffset + r.fileLength < 2 ^ 64

variable {r : VmaRegion File Obj} {va : Nat}

theorem VmaRegion.Fits.filePos_eq (h : r.Fits) (hfile : r.file.isSome)
    (hva : r.start ≤ va ∧ va < r.stop) :
    r.filePos va = r.fileOffset + (va - r.start) := by
  have hpos := h.file_positions hfile
  exact add64_of_lt (by omega)

theorem VmaRegion.Fits.window_eq (h : r.Fits) (hfile : r.file.isSome)
    (hva : r.start ≤ va ∧ va < r.stop) :
    r.window va = min (r.fileLength - (va - r.start)) pageSize := by
  have hend : r.mappedEnd = r.fileOffset + r.fileLength := add64_of_lt (h.file_end hfile)
  rw [window, h.filePos_eq hfile hva]
  split <;> omega

/-- Both pieces of a region that is cut at a page boundary fit. -/
theorem VmaRegion.Fits.cut (h : r.Fits) {addr : Nat}
    (haddr : addr % pageSize = 0) (hlo : r.start < addr) (hhi : addr < r.stop) :
    (r.cut addr).1.Fits ∧ (r.cut addr).2.Fits := by
  have hstop := h.stop_lt
  refine ⟨⟨h.start_aligned, haddr, hhi.trans hstop, ?_, ?_⟩, ⟨haddr, h.stop_aligned, hstop, ?_, ?_⟩⟩
  all_goals
    intro hfile
    have hpos := h.file_positions hfile
    have hend := h.file_end hfile
    have hoffset : add64 r.fileOffset (addr - r.start) = r.fileOffset + (addr - r.start) :=
      add64_of_lt (by omega)
    simp only [VmaRegion.cut]
    grind

variable {addr va : Nat}

/-- A page below the cut looks the same in the first piece. -/
theorem VmaRegion.Fits.view_cut_head (h : r.Fits)
    (haddr : addr % pageSize = 0) (hva : va % pageSize = 0) (hlo : r.start ≤ va) (hcut : va < addr)
    (hhi : addr < r.stop) : (r.cut addr).1.view va = r.view va := by
  cases hfile : r.file with
  | none => simp [VmaRegion.view, VmaRegion.cut, hfile]
  | some f =>
    have hsome : r.file.isSome := by simp [hfile]
    have hwhole := h.window_eq hsome ⟨hlo, hcut.trans hhi⟩
    have hpiece : (r.cut addr).1.window va =
        min ((r.cut addr).1.fileLength - (va - r.start)) pageSize :=
      (h.cut haddr (hlo.trans_lt hcut) hhi).1.window_eq hsome ⟨hlo, hcut⟩
    -- a whole page lies between `va` and the cut
    have hpage : va + pageSize ≤ addr := by
      simp only [pageSize] at haddr hva ⊢
      omega
    have hwindow : (r.cut addr).1.window va = r.window va := by
      rw [hpiece]
      simp only [VmaRegion.cut]
      split <;> omega
    simp only [VmaRegion.view, hwindow]
    rfl

/-- A page above the cut looks the same in the second piece. -/
theorem VmaRegion.Fits.view_cut_tail (h : r.Fits)
    (haddr : addr % pageSize = 0) (hlo : r.start < addr) (hcut : addr ≤ va) (hhi : va < r.stop) :
    (r.cut addr).2.view va = r.view va := by
  cases hfile : r.file with
  | none => simp [VmaRegion.view, VmaRegion.cut, hfile]
  | some f =>
    have hsome : r.file.isSome := by simp [hfile]
    have hva : r.start ≤ va ∧ va < r.stop := ⟨hlo.le.trans hcut, hhi⟩
    have hpos := h.file_positions hsome
    have hfits := (h.cut haddr hlo (hcut.trans_lt hhi)).2
    have hsome' : (r.cut addr).2.file.isSome := hsome
    have hoffset : (r.cut addr).2.fileOffset = r.fileOffset + (addr - r.start) :=
      add64_of_lt (by omega)
    have hstart : (r.cut addr).2.start = addr := rfl
    have hfilePos : (r.cut addr).2.filePos va = r.filePos va := by
      rw [h.filePos_eq hsome hva, hfits.filePos_eq hsome' ⟨hcut, hhi⟩]
      omega
    have hwindow : (r.cut addr).2.window va = r.window va := by
      rw [h.window_eq hsome hva, hfits.window_eq hsome' ⟨hcut, hhi⟩]
      simp only [VmaRegion.cut]
      split <;> omega
    simp only [VmaRegion.view, hwindow, hfilePos]
    rfl

/-! ## The list

`Placed` is the invariant of the list; the cut of the library is instantiated
with `VmaRegion.cut`. -/

/-- The regions are sorted, not empty and apart from each other, and each of
them fits. -/
structure Placed (list : List (VmaRegion File Obj)) : Prop where
  ordered : Base.Ordered VmaRegion.start VmaRegion.stop list
  fits : ∀ r ∈ list, r.Fits

theorem placed_nil : Placed ([] : List (VmaRegion File Obj)) := ⟨ordered_nil, by simp⟩

variable {list : List (VmaRegion File Obj)}

theorem Placed.sorted (h : Placed list) : list.Pairwise fun r t => r.start < t.start := by
  refine h.ordered.apart.imp_of_mem fun {r t} hr _ hle => ?_
  exact (h.ordered.nonempty r hr).trans_le hle

theorem cutsAt_cut (addr : Nat) : Base.CutsAt VmaRegion.start VmaRegion.stop
      (VmaRegion.cut addr : VmaRegion File Obj → VmaRegion File Obj × VmaRegion File Obj) addr :=
  ⟨fun _ => rfl, fun _ => rfl, fun _ => rfl, fun _ => rfl⟩

theorem Placed.split (h : Placed list) (alloc : Bool) {addr : Nat} (haddr : addr % pageSize = 0) :
    Placed (vmaSplitAt alloc list addr).2 := by
  cases alloc with
  | false => exact h
  | true =>
    exact ⟨h.ordered.cutFirst (cutsAt_cut addr),
      forall_mem_cutFirst h.fits fun r hr hlo hhi => (h.fits r hr).cut haddr hlo hhi⟩

/-- No split shows in the map. -/
theorem Placed.pageAt_split (h : Placed list) (alloc : Bool) (haddr : addr % pageSize = 0)
    (hva : va % pageSize = 0) :
    pageAt (vmaSplitAt alloc list addr).2 va = pageAt list va := by
  cases alloc with
  | false => rfl
  | true =>
    exact covering_cutFirst (cutsAt_cut addr)
      (fun r hr hlo hcut hhi => (h.fits r hr).view_cut_head haddr hva hlo hcut hhi)
      (fun r hr hlo hcut hhi => (h.fits r hr).view_cut_tail haddr hlo hcut hhi)

/-- The list after the two splits of a range update. -/
def fenced (allocs : NodeAllocs) (list : List (VmaRegion File Obj)) (start stop : Nat) :
    List (VmaRegion File Obj) :=
  (vmaSplitAt allocs.atEnd (vmaSplitAt allocs.atStart list start).2 stop).2

theorem Placed.fenced (h : Placed list) (allocs : NodeAllocs) {start stop : Nat}
    (hstart : start % pageSize = 0) (hstop : stop % pageSize = 0) :
    Placed (fenced allocs list start stop) :=
  (h.split allocs.atStart hstart).split allocs.atEnd hstop

theorem Placed.pageAt_fenced (h : Placed list) (allocs : NodeAllocs) {start stop va : Nat}
    (hstart : start % pageSize = 0) (hstop : stop % pageSize = 0) (hva : va % pageSize = 0) :
    pageAt (Vma.fenced allocs list start stop) va = pageAt list va :=
  ((h.split allocs.atStart hstart).pageAt_split allocs.atEnd hstop hva).trans
    (h.pageAt_split allocs.atStart hstart hva)

/-- If both splits succeed, no region crosses an end of the range. -/
theorem Placed.fenced_uncut (h : Placed list) {allocs : NodeAllocs} (hatStart : allocs.atStart)
    (hatEnd : allocs.atEnd) {start : Nat} (stop : Nat) (hstart : start % pageSize = 0) :
    Base.UncutAt VmaRegion.start VmaRegion.stop (Vma.fenced allocs list start stop) start ∧
      Base.UncutAt VmaRegion.start VmaRegion.stop (Vma.fenced allocs list start stop) stop := by
  have hfirst := h.split true hstart
  rw [Vma.fenced, hatStart, hatEnd]
  exact ⟨(h.ordered.uncutAt_cutFirst (cutsAt_cut start)).cutFirst (cutsAt_cut stop),
    hfirst.ordered.uncutAt_cutFirst (cutsAt_cut stop)⟩

/-- A region that covers `va` and crosses no end of the range is inside the range
if `va` is. -/
theorem within_iff {start stop va : Nat}
    (hva : r.start ≤ va ∧ va < r.stop) (hstart : ¬ (r.start < start ∧ start < r.stop))
    (hstop : ¬ (r.start < stop ∧ stop < r.stop)) :
    r.within start stop = decide (start ≤ va ∧ va < stop) := by
  rw [within, decide_eq_decide]
  omega

/-! ## Removing and protecting a range -/

section

variable {start length : Nat}

theorem mmapRemoveRange_eq (allocs : NodeAllocs) {stop : Nat} (hstop : add64 start length = stop)
    (hlength : length ≠ 0) : mmapRemoveRange allocs list start length =
      (fenced allocs list start stop).filter fun r => !r.within start stop := by
  rw [mmapRemoveRange, if_neg hlength, hstop]
  rfl

variable {allocs : NodeAllocs}

@[simp] theorem protectWithin_start (start stop prot : Nat) (r : VmaRegion File Obj) :
    (protectWithin start stop prot r).start = r.start := by
  unfold protectWithin
  split <;> rfl

@[simp] theorem protectWithin_stop (start stop prot : Nat) (r : VmaRegion File Obj) :
    (protectWithin start stop prot r).stop = r.stop := by
  unfold protectWithin
  split <;> rfl

theorem VmaRegion.Fits.protectWithin {r : VmaRegion File Obj} (h : r.Fits)
    (start stop prot : Nat) : (protectWithin start stop prot r).Fits := by
  unfold Vma.protectWithin
  split
  · exact { h with }
  · exact h

theorem Placed.map_protect (h : Placed list) (start stop prot : Nat) :
    Placed (list.map (protectWithin start stop prot)) := by
  refine ⟨h.ordered.map (protectWithin_start start stop prot) (protectWithin_stop start stop prot),
    ?_⟩
  intro r hr
  obtain ⟨t, ht, rfl⟩ := List.mem_map.mp hr
  exact (h.fits t ht).protectWithin start stop prot

/-- What holds of the four lists that `mmapProtectRange` can leave: it stops where a split
fails. -/
theorem mmapProtectRange_rule {P : List (VmaRegion File Obj) → Prop} {stop prot : Nat}
    (hstop : add64 start length = stop) (h : P list)
    (hfirst : P (vmaSplitAt allocs.atStart list start).2)
    (hfenced : P (fenced allocs list start stop))
    (hmap : P ((fenced allocs list start stop).map (protectWithin start stop prot))) :
    P (mmapProtectRange allocs list start length prot).2 := by
  unfold fenced at hfenced hmap
  rw [mmapProtectRange, hstop]
  split
  · exact h
  rcases heq : vmaSplitAt allocs.atStart list start with ⟨_ | _, first⟩
  · rwa [heq] at hfirst
  rw [heq] at hfenced hmap
  dsimp only at hfenced hmap ⊢
  rcases heq' : vmaSplitAt allocs.atEnd first stop with ⟨_ | _, last⟩
  · rwa [heq'] at hfenced
  · rwa [heq'] at hmap

theorem aligned_add (hstart : start % pageSize = 0) (hlength : length % pageSize = 0) :
    (start + length) % pageSize = 0 := by
  simp only [pageSize] at *
  omega

section

variable (h : Placed list) (hstart : start % pageSize = 0) (hlength : length % pageSize = 0)
  (hfit : start + length < 2 ^ 64)

include h hstart hlength hfit

theorem Placed.remove (allocs : NodeAllocs) :
    Placed (mmapRemoveRange allocs list start length) := by
  by_cases hzero : length = 0
  · rw [mmapRemoveRange, if_pos hzero]
    exact h
  · have hfenced := h.fenced allocs hstart (aligned_add hstart hlength)
    rw [mmapRemoveRange_eq allocs (add64_of_lt hfit) hzero]
    exact ⟨hfenced.ordered.filter _, fun r hr => hfenced.fits r (List.mem_of_mem_filter hr)⟩

/-- Removing a range takes its pages out of the map and no other. -/
theorem Placed.pageAt_remove (hatStart : allocs.atStart) (hatEnd : allocs.atEnd)
    (hva : va % pageSize = 0) : pageAt (mmapRemoveRange allocs list start length) va =
      if start ≤ va ∧ va < start + length then none else pageAt list va := by
  by_cases hzero : length = 0
  · rw [mmapRemoveRange, if_pos hzero, if_neg (by omega)]
  have hstop := aligned_add hstart hlength
  have huncut := h.fenced_uncut hatStart hatEnd (start + length) hstart
  rw [← h.pageAt_fenced allocs hstart hstop hva, mmapRemoveRange_eq allocs (add64_of_lt hfit) hzero]
  split
  case isTrue hin =>
    rw [pageAt, covering_filter_of_drop, Option.map_none]
    intro r hr hlo hhi
    simp [within_iff ⟨hlo, hhi⟩ (huncut.1 r hr) (huncut.2 r hr), hin]
  case isFalse hout =>
    rw [pageAt, covering_filter_of_keep, pageAt]
    intro r hr hlo hhi
    simp [within_iff ⟨hlo, hhi⟩ (huncut.1 r hr) (huncut.2 r hr), hout]

omit hlength in
/-- No region that is left reaches into the removed range. -/
theorem Placed.remove_apart (hatStart : allocs.atStart) (hatEnd : allocs.atEnd)
    (hzero : length ≠ 0) : ∀ r ∈ mmapRemoveRange allocs list start length,
      r.stop ≤ start ∨ start + length ≤ r.start := by
  have huncut := h.fenced_uncut hatStart hatEnd (start + length) hstart
  rw [mmapRemoveRange_eq allocs (add64_of_lt hfit) hzero]
  intro r hr
  have hmem := List.mem_of_mem_filter hr
  have hfirst := huncut.1 r hmem
  have hlast := huncut.2 r hmem
  have hkept : ¬ (start ≤ r.start ∧ r.stop ≤ start + length) := by
    simpa only [within, Bool.not_eq_true', decide_eq_false_iff_not] using List.of_mem_filter hr
  omega

theorem Placed.protect (allocs : NodeAllocs) (prot : Nat) :
    Placed (mmapProtectRange allocs list start length prot).2 := by
  have hfenced := h.fenced allocs hstart (aligned_add hstart hlength)
  exact mmapProtectRange_rule (add64_of_lt hfit) h (h.split allocs.atStart hstart) hfenced
    (hfenced.map_protect start (start + length) prot)

/-- Protecting a range changes the protection of its pages and nothing else. -/
theorem Placed.pageAt_protect (prot : Nat) (hva : va % pageSize = 0) :
    pageAt (mmapProtectRange .granted list start length prot).2 va =
      if start ≤ va ∧ va < start + length then
        (pageAt list va).map fun v => { v with prot := prot }
      else pageAt list va := by
  by_cases hzero : length = 0
  · rw [mmapProtectRange, if_pos hzero, if_neg (by omega)]
  have hstop := aligned_add hstart hlength
  have huncut := h.fenced_uncut (show NodeAllocs.granted.atStart = true from rfl) rfl
    (start + length) hstart
  have hlist : (mmapProtectRange .granted list start length prot).2 =
      (Vma.fenced .granted list start (start + length)).map
        (protectWithin start (start + length) prot) := by
    rw [mmapProtectRange, if_neg hzero, add64_of_lt hfit]
    rfl
  rw [hlist, ← h.pageAt_fenced .granted hstart hstop hva, pageAt,
    covering_map (protectWithin_start _ _ _) (protectWithin_stop _ _ _), pageAt]
  cases hcov : covering VmaRegion.start VmaRegion.stop
      (Vma.fenced .granted list start (start + length)) va with
  | none => simp
  | some r =>
    obtain ⟨hmem, hr⟩ := covering_some hcov
    have hin := within_iff hr (huncut.1 r hmem) (huncut.2 r hmem)
    simp only [Option.map_some, protectWithin, hin, decide_eq_true_eq]
    split <;> rfl

end

/-! ## Adding a region -/

theorem Placed.add (h : Placed list) {node : VmaRegion File Obj}
    (hnode : node.Fits) (hlength : length % pageSize = 0) (hzero : length ≠ 0)
    (hstop : node.stop = node.start + length)
    (halloc : allocs.node → allocs.atStart ∧ allocs.atEnd) :
    Placed (mmapAddNode allocs list length node).2 := by
  have hfit : node.start + length < 2 ^ 64 := hstop ▸ hnode.stop_lt
  have hremoved := h.remove hnode.start_aligned hlength hfit allocs
  rw [mmapAddNode]
  split
  case isTrue hgranted =>
    obtain ⟨hatStart, hatEnd⟩ := halloc hgranted
    have hapart := h.remove_apart hnode.start_aligned hfit hatStart hatEnd hzero
    refine ⟨hremoved.ordered.place (by omega) (by rw [hstop]; exact hapart), ?_⟩
    intro r hr
    rcases mem_place.mp hr with rfl | hr
    · exact hnode
    · exact hremoved.fits r hr
  case isFalse => exact hremoved

/-- Adding a region gives its pages the new backing and changes no other page. -/
theorem Placed.pageAt_add (h : Placed list) {node : VmaRegion File Obj} (hnode : node.Fits)
    (hlength : length % pageSize = 0) (hstop : node.stop = node.start + length)
    (hva : va % pageSize = 0) : pageAt (mmapAddNode .granted list length node).2 va =
      if node.start ≤ va ∧ va < node.start + length then some (node.view va)
      else pageAt list va := by
  have hfit : node.start + length < 2 ^ 64 := hstop ▸ hnode.stop_lt
  have hremoved := h.pageAt_remove hnode.start_aligned hlength hfit
    (show NodeAllocs.granted.atStart = true from rfl) rfl hva
  have hlist : (mmapAddNode .granted list length node).2 =
      place VmaRegion.start node (mmapRemoveRange .granted list node.start length) := rfl
  rw [hlist, pageAt]
  split
  case isTrue hin =>
    rw [if_pos hin, pageAt, Option.map_eq_none_iff] at hremoved
    rw [covering_place_self (by rw [hstop]; exact hin) hremoved, Option.map_some]
  case isFalse hout =>
    rw [if_neg hout] at hremoved
    rw [covering_place_of_not (by rw [hstop]; exact hout), ← hremoved, pageAt]

end

/-! ## Filling a page -/

/-- The contents `handleDemandFault` gives a page, read off the map. -/
def PageView.fill (read : File → Nat → Nat → List (BitVec 8)) (v : PageView File Obj) :
    Nat → BitVec 8 :=
  match v.backing with
  | none => fun _ => 0
  | some (file, pos, bytes) =>
    let got := if bytes = 0 then [] else read file bytes pos
    fun i => got.getD i 0

section

variable (read : File → Nat → Nat → List (BitVec 8))

include read

theorem VmaRegion.fill_eq_view (r : VmaRegion File Obj) (va : Nat) : r.fill read va =
    (r.view va).fill read := by
  cases hfile : r.file <;> simp [fill, PageView.fill, VmaRegion.view, hfile]

/-- A fault changes nothing, or it fills a missing page of a region that no object
owns. -/
theorem handleDemandFault_cases (frame : Bool) (s : Space File Obj) (faultAddr : Nat) :
    (handleDemandFault read frame s faultAddr).2 = s ∨
      ∃ va r, va = faultAddr / pageSize * pageSize ∧
        covering VmaRegion.start VmaRegion.stop s.regions va = some r ∧
        s.pages va = none ∧ va < userEnd ∧
        (handleDemandFault read frame s faultAddr).2 =
          { s with
            pages := Function.update s.pages va
              (some { bytes := r.fill read va, flags := vmaPageFlags r.prot }) } := by
  simp only [handleDemandFault]
  generalize faultAddr / pageSize * pageSize = va
  by_cases huser : userEnd ≤ va
  · simp [huser]
  cases hcov : covering VmaRegion.start VmaRegion.stop s.regions va with
  | none => simp
  | some r =>
    simp only
    split_ifs with hpage hobject hframe
    · exact .inl rfl
    · exact .inl rfl
    · exact .inl rfl
    · exact .inr ⟨va, r, rfl, hcov, by simpa using hpage, Nat.lt_of_not_le huser, rfl⟩

/-- `handleDemandFault` reads the list only through the map: two lists with the
same page at the fault answer it alike and leave the same pages. -/
theorem handleDemandFault_congr (frame : Bool)
    (s : Space File Obj) (list : List (VmaRegion File Obj)) (faultAddr : Nat)
    (h : pageAt list (faultAddr / pageSize * pageSize) =
      pageAt s.regions (faultAddr / pageSize * pageSize)) :
    (handleDemandFault read frame { s with regions := list } faultAddr).1 =
        (handleDemandFault read frame s faultAddr).1 ∧
      (handleDemandFault read frame { s with regions := list } faultAddr).2.pages =
        (handleDemandFault read frame s faultAddr).2.pages := by
  simp only [handleDemandFault]
  generalize faultAddr / pageSize * pageSize = va at h ⊢
  simp only [pageAt] at h
  by_cases huser : userEnd ≤ va
  · simp [huser]
  simp only [huser]
  cases hleft : covering VmaRegion.start VmaRegion.stop list va with
  | none =>
    cases hright : covering VmaRegion.start VmaRegion.stop s.regions va with
    | none => exact ⟨rfl, rfl⟩
    | some r => simp [hleft, hright] at h
  | some l =>
    cases hright : covering VmaRegion.start VmaRegion.stop s.regions va with
    | none => simp [hleft, hright] at h
    | some r =>
      have hview : l.view va = r.view va := by simpa [hleft, hright] using h
      have hobject : l.object = r.object := congrArg PageView.object hview
      have hprot : l.prot = r.prot := congrArg PageView.prot hview
      have hfill : l.fill read va = r.fill read va := by
        rw [fill_eq_view, fill_eq_view, hview]
      simp only [hobject, hprot, hfill]
      refine ⟨?_, ?_⟩ <;> split_ifs <;> rfl

end

end InstantOS.Vma

import InstantOS.Memory.PmmRun

/-!
# Where the metadata of the frame allocator lies

`Initialize` puts the bitmap and the reference counts into the first free
region with room for them.  From the first usable address of the region the
candidate is moved past the kernel image and then past the memory map.  The
second move is not followed by another look at the kernel, so the metadata can
come to lie on a kernel image that follows the memory map closely.

`placement_safe_iff` says that this is the only way in which the placement can
go wrong.
-/

namespace InstantOS.Pmm

/-! ## What is promised -/

/-- The metadata lies in a free region above the first page, and neither the
kernel image nor the memory map is touched. -/
structure PlacementSafe (l : Layout) (map : MemoryMap) (start : Nat) : Prop where
  inside : ∃ r ∈ map.regions, r.type = .free ∧ r.base ≤ start ∧ start + l.metaBytes ≤ r.endAddr
  above : pageSize ≤ start
  kernel : rangesOverlap start (start + l.metaBytes) l.kernelStart l.kernelEnd = false
  mmap : rangesOverlap start (start + l.metaBytes) l.mmapStart l.mmapEnd = false

/-- The first region in which the metadata finds room. -/
def firstRoom (l : Layout) (map : MemoryMap) : Option MemoryRegion :=
  map.regions.find? fun r => (placeIn l r).isSome

/-- The first usable address of the region lies before the memory map, close to
it and clear of the kernel, and from the end of the memory map on there is no
room before the kernel. -/
def Squeezed (l : Layout) (r : MemoryRegion) : Prop :=
  let first := max r.base pageSize
  rangesOverlap first (first + l.metaBytes) l.kernelStart l.kernelEnd = false ∧
    rangesOverlap first (first + l.metaBytes) l.mmapStart l.mmapEnd = true ∧
    rangesOverlap l.mmapEnd (l.mmapEnd + l.metaBytes) l.kernelStart l.kernelEnd = true
deriving Decidable

/-! ## Rounding -/

/-- Rounding up twice is rounding up once. -/
theorem alignUp_alignUp (value : Nat) :
    alignUp (alignUp value pageSize) pageSize = alignUp value pageSize := by
  unfold alignUp pageSize uint64Max
  split
  · omega
  · split <;> split <;> omega

/-! ## One region -/

variable {l : Layout}

theorem fits_iff {regionEnd start : Nat} :
    fits l regionEnd start ↔ start + l.metaBytes ≤ regionEnd := by
  unfold fits
  simp only [Bool.and_eq_true, decide_eq_true_eq]
  omega

/-- A move leaves the candidate where it misses the range, or puts it behind
the range. -/
theorem stepPast_spec {regionStart regionEnd start stop p q : Nat}
    (h : stepPast l regionStart regionEnd start stop p = some q)
    (hstop : alignUp stop pageSize = stop) :
    rangesOverlap p (p + l.metaBytes) start stop = false ∧ q = p ∨
      rangesOverlap p (p + l.metaBytes) start stop ∧ q = stop ∧ p < stop := by
  unfold stepPast at h
  cases hover : rangesOverlap p (p + l.metaBytes) start stop with
  | false =>
    rw [hover] at h
    exact .inl ⟨rfl, (Option.some.inj h).symm⟩
  | true =>
    rw [hover, if_pos rfl, hstop] at h
    split at h
    · refine .inr ⟨rfl, (Option.some.inj h).symm, ?_⟩
      simp only [rangesOverlap, Bool.and_eq_true, decide_eq_true_eq] at hover
      exact hover.1
    · cases h

/-- What is behind a range misses it. -/
theorem overlap_behind (start stop size : Nat) :
    rangesOverlap stop (stop + size) start stop = false := by
  simp [rangesOverlap]

/-- The body of the loop: everything but the kernel is respected, and the
kernel unless the region is squeezed. -/
theorem placeIn_spec {r : MemoryRegion} {p : Nat} (h : placeIn l r = some p)
    (hkernel : alignUp l.kernelEnd pageSize = l.kernelEnd)
    (hmmap : alignUp l.mmapEnd pageSize = l.mmapEnd) :
    r.type = .free ∧ r.base ≤ p ∧ p + l.metaBytes ≤ r.endAddr ∧ pageSize ≤ p ∧
      rangesOverlap p (p + l.metaBytes) l.mmapStart l.mmapEnd = false ∧
      (rangesOverlap p (p + l.metaBytes) l.kernelStart l.kernelEnd ↔ Squeezed l r) := by
  unfold placeIn at h
  split at h
  case isFalse => cases h
  rename_i hregion
  dsimp only at h
  unfold Squeezed
  generalize hfirst : max r.base pageSize = first at h ⊢
  have hlow : r.base ≤ first ∧ pageSize ≤ first := by omega
  split at h
  case isFalse => cases h
  split at h
  · cases h
  rename_i second hsecond
  split at h
  case isFalse => cases h
  split at h
  · cases h
  rename_i third hthird
  split at h
  case isFalse => cases h
  rename_i hroom
  cases h
  have hfit := fits_iff.1 hroom
  rcases stepPast_spec hsecond hkernel with ⟨hclear, rfl⟩ | ⟨hhit, rfl, hlt⟩ <;>
    rcases stepPast_spec hthird hmmap with ⟨hclear', rfl⟩ | ⟨hhit', rfl, hlt'⟩
  · refine ⟨hregion.1, hlow.1, hfit, hlow.2, hclear', ?_⟩
    simp [hclear, hclear']
  · refine ⟨hregion.1, by omega, hfit, by omega, overlap_behind _ _ _, ?_⟩
    simp [hclear, hhit']
  · refine ⟨hregion.1, by omega, hfit, by omega, hclear', ?_⟩
    simp [hhit, overlap_behind]
  · -- behind the memory map, and the memory map ends behind the kernel
    refine ⟨hregion.1, by omega, hfit, by omega, overlap_behind _ _ _, ?_⟩
    have hmiss : rangesOverlap l.mmapEnd (l.mmapEnd + l.metaBytes) l.kernelStart l.kernelEnd =
        false := by
      simp only [rangesOverlap, Bool.and_eq_false_iff, decide_eq_false_iff_not]
      omega
    simp [hmiss]

/-! ## The address of the bitmap -/

theorem forFrames_bitmapAddr {body : State → Nat → State} (s : State) (lo hi : Nat)
    (hbody : ∀ u f, (body u f).bitmapAddr = u.bitmapAddr) :
    (forFrames lo hi body s).bitmapAddr = s.bitmapAddr :=
  forFrames_preserves (P := fun u => u.bitmapAddr = s.bitmapAddr) rfl
    fun u f _ _ hu => (hbody u f).trans hu

theorem releaseUsable_bitmapAddr (s : State) (f : Nat) :
    (releaseUsable s f).bitmapAddr = s.bitmapAddr := by
  unfold releaseUsable
  split <;> rfl

theorem reserveFrame_bitmapAddr (s : State) (f : Nat) :
    (reserveFrame s f).bitmapAddr = s.bitmapAddr := by
  unfold reserveFrame
  split <;> rfl

theorem reserveFrames_bitmapAddr (start stop : Nat) (s : State) :
    (reserveFrames start stop s).bitmapAddr = s.bitmapAddr :=
  forFrames_bitmapAddr s _ _ reserveFrame_bitmapAddr

theorem releaseRegions_bitmapAddr (regions : List MemoryRegion) (s : State) :
    (regions.foldl releaseRegion s).bitmapAddr = s.bitmapAddr := by
  induction regions generalizing s with
  | nil => rfl
  | cons r regions ih =>
    rw [List.foldl_cons, ih]
    unfold releaseRegion
    split
    · exact forFrames_bitmapAddr s _ _ releaseUsable_bitmapAddr
    · rfl

theorem buildBitmap_bitmapAddr (s : State) (map : MemoryMap) (l : Layout) (p : Nat) :
    (buildBitmap s map l p).bitmapAddr = p := by
  have hreserved : ∀ u : State, u.bitmapAddr = p →
      (if 0 < u.totalFrames then reserveFrame u 0 else u).bitmapAddr = p := by
    intro u hu
    split
    · rw [reserveFrame_bitmapAddr, hu]
    · exact hu
  refine hreserved _ ?_
  rw [reserveFrames_bitmapAddr, reserveFrames_bitmapAddr, reserveFrames_bitmapAddr,
    releaseRegions_bitmapAddr]
  rfl

/-- The bitmap is where a region had room. -/
theorem initializePmm_bitmapAddr {s t : State} {map : MemoryMap} {kernelBase kernelSize : Nat}
    (h : initializePmm s map kernelBase kernelSize = some t) :
    findPlacement (layout map kernelBase kernelSize) map = some t.bitmapAddr := by
  unfold initializePmm at h
  dsimp only at h
  split at h
  · cases h
  rename_i p hp
  cases h
  rw [hp]
  rw [@forFrames_bitmapAddr seedRefcount _ _ _ fun _ _ => rfl, buildBitmap_bitmapAddr]

theorem findPlacement_eq_some {map : MemoryMap} {p : Nat} (h : findPlacement l map = some p) :
    ∃ r ∈ map.regions, firstRoom l map = some r ∧ placeIn l r = some p := by
  unfold findPlacement at h
  unfold firstRoom
  generalize map.regions = regions at h ⊢
  induction regions with
  | nil => cases h
  | cons r regions ih =>
    rw [List.findSome?_cons] at h
    cases hplace : placeIn l r with
    | some q =>
      rw [hplace] at h
      cases h
      exact ⟨r, List.mem_cons_self, by simp [hplace], hplace⟩
    | none =>
      rw [hplace] at h
      obtain ⟨r', hr', hfind, hp⟩ := ih h
      exact ⟨r', List.mem_cons_of_mem r hr', by simpa [hplace] using hfind, hp⟩

/-! ## The placement -/

/-- **The metadata is placed safely if and only if the first region with room
for it is not squeezed.** -/
theorem placement_safe_iff {s t : State} {map : MemoryMap} {kernelBase kernelSize : Nat}
    (h : initializePmm s map kernelBase kernelSize = some t) :
    PlacementSafe (layout map kernelBase kernelSize) map t.bitmapAddr ↔
      ∀ r, firstRoom (layout map kernelBase kernelSize) map = some r →
        ¬ Squeezed (layout map kernelBase kernelSize) r := by
  obtain ⟨r, hr, hfirst, hplace⟩ := findPlacement_eq_some (initializePmm_bitmapAddr h)
  obtain ⟨htype, hbase, hend, habove, hmmap, hkernel⟩ :=
    placeIn_spec hplace (alignUp_alignUp _) (alignUp_alignUp _)
  constructor
  · intro hsafe r' hr' hsqueezed
    cases hfirst.symm.trans hr'
    have hhit := hkernel.2 hsqueezed
    rw [hsafe.kernel] at hhit
    cases hhit
  · intro hclear
    refine ⟨⟨r, hr, htype, hbase, hend⟩, habove, ?_, hmmap⟩
    rw [← Bool.not_eq_true]
    exact fun hhit => hclear r hfirst (hkernel.1 hhit)

theorem placement_safe_smallMap :
    PlacementSafe (layout smallMap 0 0) smallMap smallState.bitmapAddr := by
  refine (placement_safe_iff smallState_initializePmm).2 fun r hr => ?_
  have hroom : firstRoom (layout smallMap 0 0) smallMap =
      some { base := 0, pages := 16, endAddr := 0x10000, type := .free } := by decide +kernel
  cases hroom.symm.trans hr
  decide +kernel

/-- 256 pages of free memory: the memory map in the second page, and the kernel
image in the third and fourth. -/
def squeezedMap : MemoryMap :=
  { regions := [{ base := 0, pages := 256, endAddr := 0x100000, type := .free }]
    regionsAddr := 0x1000
    regionBytes := 32 }

/-- The metadata is moved past the memory map onto the kernel image. -/
theorem placement_hits_kernel : ¬ ∀ (s t : State) (map : MemoryMap) (kernelBase kernelSize : Nat),
      (∀ r ∈ map.regions, r.endAddr = r.base + r.pages * pageSize) →
      initializePmm s map kernelBase kernelSize = some t →
      PlacementSafe (layout map kernelBase kernelSize) map t.bitmapAddr := by
  intro hall
  cases hinit : initializePmm blankState squeezedMap 0x2000 0x2000 with
  | none =>
    cases hinit
  | some t =>
    have hsafe := hall blankState t squeezedMap 0x2000 0x2000 (by decide) hinit
    have hat := initializePmm_bitmapAddr hinit
    have hkernel := hsafe.kernel
    rw [← Option.some.inj hat] at hkernel
    exact absurd hkernel (by decide +kernel)

end InstantOS.Pmm

import InstantOS.Process.Placement
import InstantOS.Process.RegionRun
import InstantOS.Process.StoreHistory

/-!
# Stores through shared file mappings

A page of a shared mapping of a file is written back by `vmaWritebackRegion`, which the calls
that drop pages run before they do.  It looks at the protection the region has at that
moment.  The stores of a page are safe as long as that protection still allows writing
whenever the page was ever writable, and as long as the call that drops the page does run
it: `sys_munmap`, `sys_mmap_file` and the exit of the process do, `sys_mmap` does not.

`Tidy` is the invariant: a page whose region does not allow writing has never been written
to.  `Careful` lists the calls it survives, and `shared_stores_reach_the_file` is what
follows for every run of them.
-/

namespace InstantOS.Vma

open VmaRegion List

open Pmm (pageSize)

variable {File Obj : Type}

/-! ## What is written back -/

variable {r : VmaRegion File Obj} {va : Nat} {s : Space File Obj} {canWrite : File → Bool}

theorem writeback_writes :
    ∀ e ∈ vmaWritebackRegion canWrite s r, ∃ file pos bytes, e = .write file pos bytes := by
  intro e he
  rw [vmaWritebackRegion] at he
  split at he
  · simp at he
  case h_2 file _ =>
    split at he
    · obtain ⟨va, _, hpage⟩ := mem_filterMap.mp he
      rw [writebackPage] at hpage
      split at hpage
      · cases hpage
      split at hpage
      · cases hpage
        exact ⟨_, _, _, rfl⟩
      · cases hpage
    · simp at he

theorem sync_writes (canWrite : File → Bool) (s : Space File Obj) (start length : Nat) :
    ∀ e ∈ mmapSyncRange canWrite s start length, ∃ file pos bytes, e = .write file pos bytes := by
  intro e he
  rw [mmapSyncRange] at he
  split at he
  · simp at he
  · obtain ⟨r, _, hr⟩ := mem_flatMap.mp he
    exact writeback_writes e hr

/-- A page of the region that lies at a page boundary is visited. -/
theorem mem_pageAddrs (hstart : r.start % pageSize = 0)
    (hva : va % pageSize = 0) (hcov : r.start ≤ va ∧ va < r.stop) : va ∈ r.pageAddrs := by
  refine mem_map.mpr ⟨(va - r.start) / pageSize, mem_range.mpr ?_, ?_⟩
  · simp only [pageSize] at *
    omega
  · simp only [pageSize] at *
    omega

/-- The region of a page that is mapped shared and writable writes the page back, each byte of
its file window to its position. -/
theorem mem_writeback
    (hfits : r.Fits) {file : File} (hfile : r.file = some file) (hshared : r.shared)
    (hprot : protWrite r.prot) (hcan : canWrite file)
    (hva : va % pageSize = 0 ∧ va < 2 ^ 48) (hcov : r.start ≤ va ∧ va < r.stop) {page : Page}
    (hpage : s.pages va = some page) {i : Nat}
    (hi : i < min (r.fileLength - (va - r.start)) pageSize) :
    ∃ start bytes, Event.write file start bytes ∈ vmaWritebackRegion canWrite s r ∧
      start ≤ r.fileOffset + (va - r.start) + i ∧
      bytes[r.fileOffset + (va - r.start) + i - start]? = some (page.bytes i) := by
  have hsome : r.file.isSome := by simp [hfile]
  have hpos := hfits.filePos_eq hsome hcov
  have hwindow := hfits.window_eq hsome hcov
  have hlt : r.filePos va < r.mappedEnd := by
    by_contra hge
    rw [window, if_neg hge] at hwindow
    omega
  refine ⟨r.filePos va, (range (r.window va)).map page.bytes, ?_, by omega, ?_⟩
  · simp only [vmaWritebackRegion, hfile, hshared, hprot, hcan]
    refine mem_filterMap.mpr ⟨va, mem_pageAddrs hfits.start_aligned hva.1 hcov, ?_⟩
    simp only [writebackPage, Nat.mod_eq_of_lt hva.2, hpage, if_pos hlt]
  · have hindex : r.fileOffset + (va - r.start) + i - r.filePos va = i := by omega
    rw [hindex, hwindow]
    simp [hi]

/-- `mmapSyncRange` writes back every region that has an address of the range. -/
theorem writeback_mem_sync
    (hr : r ∈ s.regions) {start length : Nat} (hfit : start + length < 2 ^ 64)
    (hva : start ≤ va ∧ va < start + length) (hcov : r.start ≤ va ∧ va < r.stop) :
    ∀ e ∈ vmaWritebackRegion canWrite s r, e ∈ mmapSyncRange canWrite s start length := by
  intro e he
  rw [mmapSyncRange, if_neg (by omega), add64_of_lt hfit]
  refine mem_flatMap.mpr ⟨r, mem_filter.mpr ⟨hr, ?_⟩, he⟩
  simp only [decide_eq_true_eq]
  omega

/-! ## The invariant -/

/-- The page belongs to a shared mapping of a file. -/
def PageView.SharedFile (v : PageView File Obj) : Prop := v.shared = true ∧ v.backing.isSome

/-- A shared mapping of a file has a file that can be written and was not made without any
protection bit. -/
def PageView.Durable (canWrite : File → Bool) (v : PageView File Obj) : Prop :=
  v.shared = true → ∀ file pos bytes, v.backing = some (file, pos, bytes) →
    canWrite file = true ∧ v.prot ≠ 0

/-- Pages that do not allow a store, now or after a copy-on-write fault. -/
def LeafFlags.Locked (flags : LeafFlags) : Prop := flags.readWrite = false ∧ flags.cow = false

/-- The invariant of an address space and its history. -/
structure Tidy (canWrite : File → Bool) (s : Space File Obj) (log : List (Event File)) : Prop where
  placed : Placed s.regions
  cursor : s.mmapBase % pageSize = 0
  keys : ∀ va, (s.pages va).isSome → va % pageSize = 0 ∧ va < 2 ^ 48
  kept : Kept log
  absent : ∀ va i, s.pages va = none → lastStore va i log = none
  content : ∀ va i page byte, s.pages va = some page → lastStore va i log = some byte →
    page.bytes i = byte
  mapped : ∀ va v, va % pageSize = 0 → pageAt s.regions va = some v → v.Durable canWrite
  quiet : ∀ va page v, s.pages va = some page → pageAt s.regions va = some v → v.SharedFile →
    protWrite v.prot = false → page.flags.Locked ∧ ∀ i, lastStore va i log = none

/-- The bytes a drop records are those of the region that covers the page. -/
theorem sharedBytes_some {regions : List (VmaRegion File Obj)}
    {backing : SharedBytes File} (h : sharedBytes regions va = some backing) :
    ∃ r, Base.covering start stop regions va = some r ∧ r.file = some backing.file ∧ r.shared ∧
      backing.pos = r.fileOffset + (va - r.start) ∧
      backing.bytes = min (r.fileLength - (va - r.start)) pageSize := by
  rw [sharedBytes] at h
  split at h
  · cases h
  case h_2 r hcov =>
    split at h
    · cases h
    case h_2 file hfile =>
      split at h
      case isTrue hshared =>
        cases h
        exact ⟨r, hcov, hfile, hshared, rfl, rfl⟩
      case isFalse => cases h

variable {addrs : List Nat}

theorem mem_drops {backing : Option (SharedBytes File)} : Event.drop va backing ∈ s.drops addrs ↔
      va ∈ addrs ∧ (s.pages va).isSome ∧ sharedBytes s.regions va = backing := by
  simp only [Space.drops, mem_map, mem_filter, Event.drop.injEq]
  constructor
  · rintro ⟨va', ⟨hmem, hpage⟩, rfl, rfl⟩
    exact ⟨hmem, hpage, rfl⟩
  · rintro ⟨hmem, hpage, rfl⟩
    exact ⟨va, ⟨hmem, hpage⟩, rfl, rfl⟩

theorem drops_drops : ∀ e ∈ s.drops addrs, ∃ va backing, e = .drop va backing := by
  intro e he
  obtain ⟨va, _, rfl⟩ := mem_map.mp he
  exact ⟨va, _, rfl⟩

/-! ## Steps of the invariant -/

section

variable {canWrite : File → Bool} {s : Space File Obj} {log : List (Event File)}

section

variable (h : Tidy canWrite s log)

include h

/-- A pending byte of a shared file mapping belongs to a region that writes it back. -/
theorem Tidy.pending {va i : Nat} {page : Page} {byte : BitVec 8}
    (hpage : s.pages va = some page) (hlast : lastStore va i log = some byte)
    {backing : SharedBytes File} (hbacking : sharedBytes s.regions va = some backing)
    (hi : i < backing.bytes) :
    ∃ r v, r ∈ s.regions ∧ (r.start ≤ va ∧ va < r.stop) ∧ pageAt s.regions va = some v ∧
      v.SharedFile ∧ protWrite v.prot ∧
      ∃ start bytes, Event.write backing.file start bytes ∈ vmaWritebackRegion canWrite s r ∧
        start ≤ backing.pos + i ∧ bytes[backing.pos + i - start]? = some byte := by
  obtain ⟨r, hcov, hfile, hshared, hpos, hbytes⟩ := sharedBytes_some hbacking
  obtain ⟨hmem, hin⟩ := Base.covering_some hcov
  have hkey := h.keys va (by simp [hpage])
  have hview : pageAt s.regions va = some (r.view va) := by rw [pageAt, hcov, Option.map_some]
  have hsharedFile : (r.view va).SharedFile := ⟨hshared, by simp [view, hfile]⟩
  have hdurable := h.mapped va _ hkey.1 hview hshared backing.file (r.filePos va) (r.window va)
    (by simp [view, hfile])
  have hprot : protWrite r.prot := by
    by_contra hno
    have hquiet := (h.quiet va page _ hpage hview hsharedFile (Bool.eq_false_iff.mpr hno)).2 i
    rw [hquiet] at hlast
    cases hlast
  have hwritten := mem_writeback (h.placed.fits r hmem) hfile hshared hprot hdurable.1 hkey hin
    hpage (hbytes ▸ hi)
  rw [h.content va i page byte hpage hlast, ← hpos] at hwritten
  exact ⟨r, r.view va, hmem, hin, hview, hsharedFile, hprot, hwritten⟩

/-- Writes, and then the drop of pages whose pending bytes are among the writes. -/
theorem Tidy.drop {writes : List (Event File)}
    (hwrites : ∀ e ∈ writes, ∃ file pos bytes, e = .write file pos bytes)
    (hflushed : ∀ va ∈ addrs, ∀ r v, r ∈ s.regions → r.start ≤ va ∧ va < r.stop →
      (s.pages va).isSome → pageAt s.regions va = some v → v.SharedFile →
      protWrite v.prot → ∀ e ∈ vmaWritebackRegion canWrite s r, e ∈ writes) :
    Tidy canWrite (s.without addrs) (log ++ (writes ++ s.drops addrs)) := by
  have hstores : ∀ va i byte, Event.store va i byte ∉ writes ++ s.drops addrs := by
    intro va i byte hmem
    rcases mem_append.mp hmem with hw | hd
    · obtain ⟨_, _, _, heq⟩ := hwrites _ hw
      cases heq
    · obtain ⟨_, _, heq⟩ := drops_drops _ hd
      cases heq
  have hpresent : ∀ va page, (s.without addrs).pages va = some page →
      va ∉ addrs ∧ s.pages va = some page := by
    intro va page hpage
    simp only [Space.without] at hpage
    split at hpage
    case isTrue => cases hpage
    case isFalse hout => exact ⟨hout, hpage⟩
  have hleaves : ∀ va i, va ∉ addrs → ∀ e ∈ writes ++ s.drops addrs, e.Leaves va i := by
    intro va i hout e he
    rcases mem_append.mp he with hw | hd
    · obtain ⟨_, _, _, rfl⟩ := hwrites e hw
      trivial
    · obtain ⟨va', backing, rfl⟩ := drops_drops e hd
      exact fun heq => hout (heq ▸ (mem_drops.mp hd).1)
  have hlast : ∀ va i, va ∉ addrs →
      lastStore va i (log ++ (writes ++ s.drops addrs)) = lastStore va i log := by
    intro va i hout
    rw [lastStore_append, foldl_noteStore_of_leaves (hleaves va i hout)]
  refine ⟨h.placed, h.cursor, ?_, ?_, ?_, ?_, h.mapped, ?_⟩
  · intro va hva
    obtain ⟨page, hpage⟩ := Option.isSome_iff_exists.mp hva
    exact h.keys va (by simp [(hpresent va page hpage).2])
  · refine h.kept.append_writes_drops hwrites drops_drops ?_
    intro va backing hmem i hi byte hpending
    obtain ⟨hin, hpage, hbacking⟩ := mem_drops.mp hmem
    obtain ⟨page, hpage'⟩ := Option.isSome_iff_exists.mp hpage
    obtain ⟨r, v, hr, hcov, hview, hshared, hprot, start, bytes, hwrite, hbounds⟩ :=
      h.pending hpage' hpending hbacking hi
    exact ⟨start, bytes, hflushed va hin r v hr hcov hpage hview hshared hprot _ hwrite, hbounds⟩
  · intro va i hgone
    cases hpage : s.pages va with
    | none =>
      rw [lastStore_append, h.absent va i hpage]
      exact foldl_noteStore_none hstores
    | some page =>
      -- the page went with this step
      have hin : va ∈ addrs := by
        by_contra hout
        simp [Space.without, hout, hpage] at hgone
      exact lastStore_of_drop hstores
        (mem_append_right _ (mem_drops.mpr ⟨hin, by simp [hpage], rfl⟩))
  · intro va i page byte hpage hbyte
    obtain ⟨hout, hpage⟩ := hpresent va page hpage
    rw [hlast va i hout] at hbyte
    exact h.content va i page byte hpage hbyte
  · intro va page v hpage hview hshared hprot
    obtain ⟨hout, hpage⟩ := hpresent va page hpage
    obtain ⟨hlocked, hquiet⟩ := h.quiet va page v hpage hview hshared hprot
    exact ⟨hlocked, fun i => (hlast va i hout).trans (hquiet i)⟩

/-- Writes alone. -/
theorem Tidy.write {writes : List (Event File)}
    (hwrites : ∀ e ∈ writes, ∃ file pos bytes, e = .write file pos bytes) :
    Tidy canWrite s (log ++ writes) := by
  have hnothing := h.drop hwrites (show ∀ va ∈ ([] : List Nat), _ by simp)
  simpa [Space.without, Space.drops] using hnothing

/-- Another cursor. -/
theorem Tidy.setCursor {mmapBase : Nat} (hcursor : mmapBase % pageSize = 0) : Tidy canWrite
    { s with mmapBase := mmapBase } log :=
  { h with cursor := hcursor }

/-- An edit of the region list over a range in which no page is present. -/
theorem Tidy.edit {op : RegionOp File Obj} (hproper : op.Proper)
    (hunwrapped : op.Unwrapped)
    (hvacant : ∀ va, va % pageSize = 0 → op.covers va → s.pages va = none)
    (hdurable : ∀ va v, va % pageSize = 0 → op.covers va →
      op.target va (pageAt s.regions va) = some v → v.Durable canWrite) :
    Tidy canWrite { s with regions := op.apply .granted s.regions } log := by
  refine ⟨h.placed.apply hproper hunwrapped op.funded_granted, h.cursor, h.keys, h.kept, h.absent,
    h.content, ?_, ?_⟩
  · intro va v hva hview
    rw [h.placed.pageAt_apply hproper hunwrapped hva] at hview
    split at hview
    case isTrue hin => exact hdurable va v hva hin hview
    case isFalse => exact h.mapped va v hva hview
  · intro va page v hpage hview hshared hprot
    have hpage : s.pages va = some page := hpage
    have hva := (h.keys va (by simp [hpage])).1
    rw [h.placed.pageAt_apply hproper hunwrapped hva] at hview
    split at hview
    case isTrue hin =>
      rw [hvacant va hva hin] at hpage
      cases hpage
    case isFalse => exact h.quiet va page v hpage hview hshared hprot

/-- New pages where there were none, outside shared file mappings. -/
theorem Tidy.map (contents : Nat → Page)
    (hkeys : ∀ va ∈ addrs, va % pageSize = 0 ∧ va < 2 ^ 48)
    (hvacant : ∀ va ∈ addrs, s.pages va = none)
    (hplain : ∀ va ∈ addrs, ∀ v, pageAt s.regions va = some v → ¬ v.SharedFile) : Tidy canWrite
      { s with pages := fun va => if va ∈ addrs then some (contents va) else s.pages va } log := by
  refine ⟨h.placed, h.cursor, ?_, h.kept, ?_, ?_, h.mapped, ?_⟩
  · intro va hva
    by_cases hin : va ∈ addrs
    · exact hkeys va hin
    · exact h.keys va (by simpa [hin] using hva)
  · intro va i hgone
    by_cases hin : va ∈ addrs
    · simp [hin] at hgone
    · exact h.absent va i (by simpa [hin] using hgone)
  · intro va i page byte hpage hbyte
    by_cases hin : va ∈ addrs
    · rw [h.absent va i (hvacant va hin)] at hbyte
      cases hbyte
    · exact h.content va i page byte (by simpa [hin] using hpage) hbyte
  · intro va page v hpage hview hshared hprot
    by_cases hin : va ∈ addrs
    · exact absurd hshared (hplain va hin v hview)
    · exact h.quiet va page v (by simpa [hin] using hpage) hview hshared hprot

end

end

end InstantOS.Vma

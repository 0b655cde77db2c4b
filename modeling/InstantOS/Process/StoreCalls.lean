import InstantOS.Process.SharedStores

/-!
# The memory calls and pending stores

Each call keeps `Tidy`, under the condition `MemCall.Careful` on its arguments and on the
address space it finds.  The conditions are those under which the write back the call
relies on takes place; `sys_msync` and page faults need none.  `rangeCalls_iff` says for which
arguments the calls with a range act on that range.
-/

namespace InstantOS.Vma

open Function RegionOp

open Pmm (pageSize)

variable {File Obj : Type}

/-- No page is present in the range. -/
def Space.Vacant (s : Space File Obj) (start bytes : Nat) : Prop :=
  ∀ va, va % pageSize = 0 → start ≤ va → va < start + bytes → s.pages va = none

theorem mem_userPages_iff {base pages va : Nat} (hbase : base % pageSize = 0)
    (hfit : base + pages * pageSize ≤ 2 ^ 48) :
    va ∈ userPages base pages ↔ va % pageSize = 0 ∧ base ≤ va ∧ va < base + pages * pageSize := by
  constructor
  · intro h
    refine ⟨?_, mem_userPages hfit h⟩
    obtain ⟨i, _, rfl⟩ := List.mem_map.mp h
    simp only [pageSize] at *
    omega
  · rintro ⟨haligned, hlo, hhi⟩
    refine List.mem_map.mpr ⟨(va - base) / pageSize, List.mem_range.mpr ?_, ?_⟩
    · simp only [pageSize] at *
      omega
    · simp only [pageSize] at *
      omega

/-- Calls on whole pages below `2 ^ 64` are proper. -/
theorem RegionOp.proper_of_fit {op : RegionOp File Obj} (haligned : op.start % pageSize = 0)
    (hpages : op.length % pageSize = 0) (hfit : op.start + op.length < 2 ^ 64)
    (hwindow : op.WindowEnds) : op.Proper :=
  ⟨(Nat.le_add_right _ _).trans_lt hfit, (Nat.le_add_left _ _).trans_lt hfit, haligned, hpages,
    hwindow⟩

section

variable {canWrite : File → Bool} {s : Space File Obj} {log : List (Event File)}

/-! ## Mapping -/

theorem Tidy.place (h : Tidy canWrite s log) (addr bytes : Nat) :
    Tidy canWrite (mmapPlace s addr bytes).2 log := by
  rw [mmapPlace]
  split
  · refine h.setCursor ?_
    have hcursor := h.cursor
    simp only [add64, alignUp, pageSize] at *
    omega
  · exact h

/-- The space that a call leaves is tidy with what the call adds to the log. -/
@[simp] abbrev TidyAfter (canWrite : File → Bool) (log : List (Event File)) (r : Call File Obj) :
    Prop :=
  Tidy canWrite r.space (log ++ r.events)

variable {addr length prot : Nat}

/-- Where an accepted mapping lies. -/
theorem Tidy.accepted (h : Tidy canWrite s log) {virt : Nat} {t : Space File Obj}
    (haddr : ¬ (addr ≠ 0 ∧ addr % pageSize ≠ 0)) (hlength : ¬ userEnd < length)
    (hplace : mmapPlace s addr (pageCount length * pageSize) = (virt, t))
    (hrefused : ¬ (virt = 0 ∨ outsideUser virt (pageCount length * pageSize))) :
    virt % pageSize = 0 ∧ virt + pageCount length * pageSize ≤ 2 ^ 48 := by
  refine ⟨?_, (accepted_range hlength hrefused).2⟩
  rw [mmapPlace] at hplace
  split at hplace
  · cases hplace
    exact h.cursor
  case isFalse hfixed =>
    cases hplace
    by_contra hodd
    exact haddr ⟨hfixed, hodd⟩

variable {virt pages : Nat}

/-- The range of a mapping is emptied before the region is added: a fixed one by dropping its
pages, any other because it was empty. -/
theorem Tidy.replaced (h : Tidy canWrite s log)
    (haligned : virt % pageSize = 0) (hfit : virt + pages * pageSize ≤ 2 ^ 48)
    (hvacant : addr = 0 → s.Vacant virt (pages * pageSize)) {writes : List (Event File)}
    (hwrites : ∀ e ∈ writes, ∃ file pos bytes, e = .write file pos bytes)
    (hflushed : addr ≠ 0 → ∀ va ∈ userPages virt pages, ∀ r v, r ∈ s.regions →
      r.start ≤ va ∧ va < r.stop → (s.pages va).isSome → pageAt s.regions va = some v →
      v.SharedFile → protWrite v.prot → ∀ e ∈ vmaWritebackRegion canWrite s r, e ∈ writes) :
    Tidy canWrite (s.replaced .granted addr virt pages)
        (log ++ (writes ++ s.replacedDrops addr virt pages)) ∧
      (s.replaced .granted addr virt pages).Vacant virt (pages * pageSize) := by
  rw [Space.replaced, Space.replacedDrops]
  by_cases haddr : addr = 0
  · rw [if_pos haddr, if_pos haddr, List.append_nil]
    exact ⟨h.write hwrites, hvacant haddr⟩
  rw [if_neg haddr, if_neg haddr]
  have hempty : (s.without (userPages virt pages)).Vacant virt (pages * pageSize) := by
    intro va hva hlo hhi
    simp only [Space.without]
    rw [if_pos ((mem_userPages_iff haligned hfit).mpr ⟨hva, hlo, hhi⟩)]
  have hdropped := h.drop hwrites (hflushed haddr)
  have hproper : (remove virt (pages * pageSize) : RegionOp File Obj).Proper :=
    proper_of_fit haligned (Nat.mul_mod_left _ _) (lt_word hfit) trivial
  exact ⟨hdropped.edit hproper ⟨lt_word hfit, trivial⟩
    (fun va hva hin => hempty va hva hin.1 hin.2) (fun va v _ _ hview => by cases hview), hempty⟩

/-- A region added over an empty range. -/
theorem Tidy.addRange (h : Tidy canWrite s log) (op : RegionOp File Obj)
    (haligned : op.start % pageSize = 0) (hpages : op.length % pageSize = 0)
    (hfit : op.start + op.length < 2 ^ 64) (hwindow : op.WindowEnds) (hpositions : op.PositionsFit)
    (hvacant : s.Vacant op.start op.length)
    (hdurable : ∀ va v, op.target va (pageAt s.regions va) = some v → v.Durable canWrite) :
    Tidy canWrite { s with regions := op.apply .granted s.regions } log :=
  h.edit (proper_of_fit haligned hpages hfit hwindow) ⟨hfit, hpositions⟩
    (fun va hva hin => hvacant va hva hin.1 hin.2)
    fun va v _ _ hview => hdurable va v hview

/-- The condition of a fixed `sys_mmap` and of the end of a thread, which do not write back what
they drop: no present page of the range belongs to a shared file mapping that allows writing. -/
def Space.Unshared (s : Space File Obj) (addr pages : Nat) : Prop :=
  ∀ va ∈ userPages addr pages, (s.pages va).isSome → ∀ v, pageAt s.regions va = some v →
    v.SharedFile → protWrite v.prot = false

theorem Tidy.dropUnshared (h : Tidy canWrite s log) (hunshared : s.Unshared addr pages) :
    Tidy canWrite (s.without (userPages addr pages)) (log ++ s.drops (userPages addr pages)) := by
  refine h.drop (show ∀ e ∈ ([] : List (Event File)), _ by simp) ?_
  intro va hva r v _ _ hpage hview hshared hprot
  rw [hunshared va hva hpage v hview hshared] at hprot
  cases hprot

/-- The range of an accepted mapping without a fixed address is the one at the cursor. -/
theorem vacant_place {bytes : Nat} (hvacant : addr = 0 → s.Vacant s.mmapBase bytes)
    (haddr : addr = 0) : (mmapPlace s addr bytes).2.Vacant (mmapPlace s addr bytes).1 bytes := by
  subst haddr
  exact hvacant rfl

theorem Tidy.sysMmap (h : Tidy canWrite s log) (prot : Nat)
    (hvacant : addr = 0 → s.Vacant s.mmapBase (pageCount length * pageSize))
    (hunshared : addr ≠ 0 → s.Unshared addr (pageCount length)) :
    TidyAfter canWrite log (Vma.sysMmap .granted s addr length prot) := by
  simp only [Vma.sysMmap]
  split_ifs with hzero haddr hlength hrefused
  · simpa using h
  · simpa using h
  · simpa using h
  · simpa using h.place addr (pageCount length * pageSize)
  obtain ⟨haligned, hfit⟩ := h.accepted haddr hlength (Prod.eta _).symm hrefused
  have hplace := h.place addr (pageCount length * pageSize)
  have hreplaced := hplace.replaced haligned hfit (vacant_place hvacant)
    (show ∀ e ∈ ([] : List (Event File)), _ by simp) (by
      intro hfixed va hva r v _ _ hpage hview hshared hprot
      rw [mmapPlace, if_neg hfixed] at hva hpage hview
      rw [hunshared hfixed va hva hpage v hview hshared] at hprot
      cases hprot)
  exact hreplaced.1.addRange
    (.add (mmapPlace s addr (pageCount length * pageSize)).1 (pageCount length * pageSize) prot)
    haligned (Nat.mul_mod_left _ _) (lt_word hfit) trivial trivial hreplaced.2 (by
      intro va v hview hshared
      cases hview
      cases hshared)

/-- The window `sys_mmap_file` takes from the size of the file ends at a 64-bit position. -/
theorem fileLength_end (d : Descriptor File Obj) {offset : Nat} (h : offset < 2 ^ 64) :
    offset + d.fileLength offset < 2 ^ 64 := by
  rw [Descriptor.fileLength]
  split
  · exact h
  case h_2 size _ =>
    split <;> omega

/-- A buffer object mapped over an empty range. -/
theorem Tidy.mmapBuffer (h : Tidy canWrite s log)
    (haligned : virt % pageSize = 0) (hfit : virt + pages * pageSize ≤ 2 ^ 48)
    (hzero : pages * pageSize ≠ 0) (hvacant : s.Vacant virt (pages * pageSize)) (prot : Nat)
    (events : List (Event File)) (object : Obj) (contents : Nat → Nat → BitVec 8) :
    Tidy canWrite (mmapBuffer .granted s virt pages prot events object contents).space log ∧
      (Vma.mmapBuffer .granted s virt pages prot events object contents).events = events := by
  have hadded := h.addRange (.addObject virt (pages * pageSize) prot (some object)) haligned
    (Nat.mul_mod_left _ _) (lt_word hfit) trivial trivial hvacant (by
      intro va v hview _ file pos bytes hbacking
      cases hview
      cases hbacking)
  have hcall : Vma.mmapBuffer .granted s virt pages prot events object contents =
      ⟨.ok virt,
        { s.mapObject virt pages prot contents with
          regions := (addObject virt (pages * pageSize) prot (some object)).apply .granted
            s.regions }, events⟩ := by
    simp only [Vma.mmapBuffer, apply, mmapAddObjectRegion, Space.mapObject,
      Option.isNone_some, Bool.false_eq_true, or_false, if_neg hzero]
    rfl
  rw [hcall]
  refine ⟨hadded.map _ ?_ ?_ ?_, rfl⟩
  · intro va hva
    obtain ⟨hkey, -, hhi⟩ := (mem_userPages_iff haligned hfit).mp hva
    exact ⟨hkey, hhi.trans_le hfit⟩
  · intro va hva
    obtain ⟨hkey, hlo, hhi⟩ := (mem_userPages_iff haligned hfit).mp hva
    exact hvacant va hkey hlo hhi
  · intro va hva v hview hshared
    obtain ⟨hkey, hlo, hhi⟩ := (mem_userPages_iff haligned hfit).mp hva
    have hproper : (addObject virt (pages * pageSize) prot (some object) :
        RegionOp File Obj).Proper :=
      proper_of_fit haligned (Nat.mul_mod_left _ _) (lt_word hfit) trivial
    have hin : (addObject virt (pages * pageSize) prot (some object) :
        RegionOp File Obj).covers va := ⟨hlo, hhi⟩
    have hpage := h.placed.pageAt_apply hproper ⟨lt_word hfit, trivial⟩ hkey
    rw [if_pos hin] at hpage
    rw [hpage] at hview
    cases hview
    cases hshared.2

/-- A file or a buffer object mapped over an empty range. -/
theorem Tidy.mmapBacked {events : List (Event File)} (h : Tidy canWrite s (log ++ events))
    (haligned : virt % pageSize = 0) (hfit : virt + pages * pageSize ≤ 2 ^ 48)
    (hzero : pages * pageSize ≠ 0) (hvacant : s.Vacant virt (pages * pageSize))
    {shared : Bool} {d : Descriptor File Obj} {offset : Nat}
    (hoffset : offset + pages * pageSize ≤ 2 ^ 64)
    (hdurable : shared → canWrite d.file ∧ prot ≠ 0) :
    TidyAfter canWrite log (Vma.mmapBacked .granted s virt pages prot shared d offset events) := by
  rw [Vma.mmapBacked]
  split
  case h_1 => exact h
  case h_2 object contents _ =>
    obtain ⟨hmapped, hevents⟩ :=
      h.mmapBuffer haligned hfit hzero hvacant prot events object contents
    rw [TidyAfter, hevents]
    exact hmapped
  case h_3 =>
    refine h.addRange (.addFile virt (pages * pageSize) prot (some d.file) offset
      (d.fileLength offset) shared) haligned (Nat.mul_mod_left _ _) (lt_word hfit) ?_ ?_ hvacant ?_
    · exact fileLength_end d (by omega)
    · exact fun _ => hoffset
    · intro va v hview hshared file pos bytes hbacking
      cases hview
      cases hbacking
      exact hdurable hshared

theorem Tidy.sysMmapFile (h : Tidy canWrite s log) {offset : Nat} {shared : Bool}
    {fd : Option (Descriptor File Obj)}
    (hvacant : addr = 0 → s.Vacant s.mmapBase (pageCount length * pageSize))
    (hoffset : offset + pageCount length * pageSize ≤ 2 ^ 64)
    (hdurable : ∀ d, fd = some d → shared → canWrite d.file ∧ prot ≠ 0) : TidyAfter canWrite log
      (Vma.sysMmapFile canWrite .granted s addr length prot shared fd offset) := by
  cases fd with
  | none =>
    simp only [Vma.sysMmapFile]
    split_ifs <;> simpa using h
  | some d =>
    simp only [Vma.sysMmapFile]
    split_ifs with hzero haddr hodd hlength hrefused hcursor
    · simpa using h
    · simpa using h
    · simpa using h
    · simpa using h
    · simpa using h.place addr (pageCount length * pageSize)
    · obtain ⟨haligned, hfit⟩ := h.accepted haddr hlength (Prod.eta _).symm hrefused
      have hreplaced := (h.place addr (pageCount length * pageSize)).replaced haligned hfit
        (vacant_place hvacant)
        (show ∀ e ∈ ([] : List (Event File)), _ by simp)
        (fun hfixed => absurd hcursor hfixed)
      exact hreplaced.1.mmapBacked haligned hfit (pageCount_pos hzero hlength) hreplaced.2 hoffset
        (hdurable d rfl)
    · obtain ⟨haligned, hfit⟩ := h.accepted haddr hlength (Prod.eta _).symm hrefused
      -- what the range drops has been written back in front of the drops
      have hreplaced := (h.place addr (pageCount length * pageSize)).replaced haligned hfit
        (vacant_place hvacant) (sync_writes canWrite _ _ _) (by
          intro _ va hva r v hr hcov _ _ _ _
          exact writeback_mem_sync hr (lt_word hfit) (mem_userPages hfit hva) hcov)
      exact hreplaced.1.mmapBacked haligned hfit (pageCount_pos hzero hlength) hreplaced.2 hoffset
        (hdurable d rfl)

/-! ## Unmapping, synchronising and protecting -/

theorem rangeBytes_eq (hfit : addr + pageCount length * pageSize < 2 ^ 64) :
    rangeBytes length = pageCount length * pageSize :=
  Nat.mod_eq_of_lt ((Nat.le_add_left _ _).trans_lt hfit)

theorem aligned_of_not_badRange (h : ¬ badRange addr length) : addr % pageSize = 0 := by
  simp only [badRange, decide_eq_true_eq] at h
  omega

theorem Tidy.sysMunmap (h : Tidy canWrite s log)
    (hfit : addr + pageCount length * pageSize ≤ 2 ^ 48) :
    TidyAfter canWrite log (Vma.sysMunmap canWrite .granted s addr length) := by
  rw [Vma.sysMunmap, rangeBytes_eq (lt_word hfit)]
  split
  · simpa using h
  case isFalse hrange =>
    have haligned := aligned_of_not_badRange hrange
    have hdropped := h.drop (sync_writes canWrite s addr (pageCount length * pageSize)) (by
      intro va hva r v hr hcov _ _ _ _
      exact writeback_mem_sync hr (lt_word hfit) (mem_userPages hfit hva) hcov)
    have hproper : (remove addr (pageCount length * pageSize) : RegionOp File Obj).Proper :=
      proper_of_fit haligned (Nat.mul_mod_left _ _) (lt_word hfit) trivial
    refine hdropped.edit hproper ⟨lt_word hfit, trivial⟩ ?_ ?_
    · intro va hva hin
      exact if_pos ((mem_userPages_iff haligned hfit).mpr ⟨hva, hin⟩)
    · rintro va v _ _ ⟨⟩

theorem Tidy.sysMsync (h : Tidy canWrite s log) (addr length : Nat) :
    TidyAfter canWrite log (Vma.sysMsync canWrite s addr length) := by
  rw [Vma.sysMsync]
  split
  · simpa using h
  · exact h.write (sync_writes canWrite s addr (rangeBytes length))

/-- The condition of `sys_mprotect`: a page of a shared file mapping that allows writing goes on
to do so, and no such mapping is left without any protection bit. -/
def Space.StaysWritable (s : Space File Obj) (addr bytes prot : Nat) : Prop :=
  ∀ va v, va % pageSize = 0 → addr ≤ va → va < addr + bytes → pageAt s.regions va = some v →
    v.SharedFile → protWrite prot = true ∨ (protWrite v.prot = false ∧ prot ≠ 0)

theorem pageFlagsForProtection_locked (hprot : protWrite prot = false)
    (hzero : prot ≠ 0) : (pageFlagsForProtection prot).Locked := by
  simp [pageFlagsForProtection, LeafFlags.Locked, hzero, hprot]

variable {pages va : Nat}

/-- A page after the loop comes from a page before it with the same contents, and with the same
flags outside the range. -/
theorem protectPages_some {page : Page} (h : s.protectPages addr pages prot va = some page) :
    ∃ old, s.pages va = some old ∧ page.bytes = old.bytes ∧
      (va ∈ userPages addr pages → page.flags = pageFlagsForProtection prot) ∧
      (va ∉ userPages addr pages → page = old) := by
  rw [Space.protectPages] at h
  split at h
  case isTrue hin =>
    obtain ⟨old, hold, rfl⟩ := Option.map_eq_some_iff.mp h
    exact ⟨old, hold, rfl, fun _ => rfl, fun hout => absurd hin hout⟩
  case isFalse hout => exact ⟨page, h, rfl, fun hin => absurd hin hout, fun _ => rfl⟩

theorem protectPages_none (h : s.protectPages addr pages prot va = none) : s.pages va = none := by
  rw [Space.protectPages] at h
  split at h
  · simpa using h
  · exact h

/-- A page of the map after `mmapProtectRange`: in the range it has the new protection. -/
theorem Placed.pageAt_protected {regions : List (VmaRegion File Obj)} (h : Placed regions)
    (haligned : addr % pageSize = 0)
    (hfit : addr + pages * pageSize ≤ 2 ^ 48) (hva : va % pageSize = 0) {v : PageView File Obj}
    (hv : pageAt (mmapProtectRange .granted regions addr (pages * pageSize) prot).2 va = some v) :
    (va ∉ userPages addr pages ∧ pageAt regions va = some v) ∨ va ∈ userPages addr pages ∧
        ∃ old, pageAt regions va = some old ∧ v = { old with prot := prot } := by
  rw [h.pageAt_protect haligned (Nat.mul_mod_left _ _) (lt_word hfit) prot hva] at hv
  rw [mem_userPages_iff haligned hfit]
  split at hv
  case isTrue hin =>
    obtain ⟨old, hold, rfl⟩ := Option.map_eq_some_iff.mp hv
    exact .inr ⟨⟨hva, hin⟩, old, hold, rfl⟩
  case isFalse hout => exact .inl ⟨fun hmem => hout hmem.2, hv⟩

theorem Tidy.sysMprotect (h : Tidy canWrite s log)
    (hfit : addr + pageCount length * pageSize ≤ 2 ^ 48)
    (hstays : s.StaysWritable addr (pageCount length * pageSize) prot) :
    TidyAfter canWrite log (Vma.sysMprotect .granted s addr length prot) := by
  rw [Vma.sysMprotect, rangeBytes_eq (lt_word hfit)]
  split
  · simpa using h
  case isFalse hrange =>
    have haligned := aligned_of_not_badRange hrange
    have hstays : ∀ va old, va ∈ userPages addr (pageCount length) →
        pageAt s.regions va = some old → old.SharedFile →
          protWrite prot ∨ (protWrite old.prot = false ∧ prot ≠ 0) := by
      intro va old hmem hold hshared
      obtain ⟨hva, hlo, hhi⟩ := (mem_userPages_iff haligned hfit).mp hmem
      exact hstays va old hva hlo hhi hold hshared
    rw [TidyAfter, List.append_nil]
    refine ⟨h.placed.protect haligned (Nat.mul_mod_left _ _) (lt_word hfit) .granted prot, h.cursor,
      ?_, h.kept, fun va i hgone => h.absent va i (protectPages_none hgone), ?_, ?_, ?_⟩
    · intro va hva
      obtain ⟨page, hpage⟩ := Option.isSome_iff_exists.mp hva
      obtain ⟨old, hold, _⟩ := protectPages_some hpage
      exact h.keys va (by simp [hold])
    · intro va i page byte hpage hbyte
      obtain ⟨old, hold, hbytes, _⟩ := protectPages_some hpage
      rw [hbytes]
      exact h.content va i old byte hold hbyte
    · intro va v hva hv hshared file pos bytes hbacking
      rcases h.placed.pageAt_protected haligned hfit hva hv with
        ⟨_, hsame⟩ | ⟨hmem, old, hold, rfl⟩
      · exact h.mapped va v hva hsame hshared file pos bytes hbacking
      · refine ⟨(h.mapped va old hva hold hshared file pos bytes hbacking).1, ?_⟩
        have hold' : old.SharedFile := ⟨hshared, Option.isSome_iff_exists.mpr ⟨_, hbacking⟩⟩
        rcases hstays va old hmem hold hold' with hwrite | hlocked
        · rintro rfl
          cases hwrite
        · exact hlocked.2
    · intro va page v hpage hv hshared hprot
      obtain ⟨before, hbefore, _, hin, hout⟩ := protectPages_some hpage
      have hva := (h.keys va (by simp [hbefore])).1
      rcases h.placed.pageAt_protected haligned hfit hva hv with
        ⟨hmem, hsame⟩ | ⟨hmem, old, hold, rfl⟩
      · rw [hout hmem]
        exact h.quiet va before v hbefore hsame hshared hprot
      · rcases hstays va old hmem hold hshared with hwrite | ⟨hold', hzero⟩
        · rw [hwrite] at hprot
          cases hprot
        · rw [hin hmem]
          exact ⟨pageFlagsForProtection_locked hprot hzero,
            (h.quiet va before old hbefore hold hshared hold').2⟩

/-! ## Faults and threads -/

theorem vmaPageFlags_locked (hprot : protWrite prot = false) (hzero : prot ≠ 0) :
    (vmaPageFlags prot).Locked := by
  simp [vmaPageFlags, LeafFlags.Locked, hzero, hprot]

/-- A page that is faulted in has no stores, and is not writable if its region is not. -/
theorem Tidy.handleDemandFault (h : Tidy canWrite s log)
    (read : File → Nat → Nat → List (BitVec 8)) (frame : Bool) (faultAddr : Nat) :
    Tidy canWrite (handleDemandFault read frame s faultAddr).2 log := by
  rcases handleDemandFault_cases read frame s faultAddr with
    heq | ⟨va, r, hva, hcov, hnone, huser, heq⟩
  · rw [heq]
    exact h
  · have haligned : va % pageSize = 0 := by
      rw [hva]
      exact Nat.mul_mod_left _ _
    have hview : pageAt s.regions va = some (r.view va) := by rw [pageAt, hcov, Option.map_some]
    rw [heq]
    refine ⟨h.placed, h.cursor, ?_, h.kept, ?_, ?_, h.mapped, ?_⟩
    · intro x hx
      by_cases hsame : x = va
      · rw [hsame]
        exact ⟨haligned, huser.trans (by decide)⟩
      · exact h.keys x (by simpa [update_of_ne hsame] using hx)
    · intro x i hgone
      by_cases hsame : x = va
      · simp [hsame] at hgone
      · exact h.absent x i (by simpa [update_of_ne hsame] using hgone)
    · intro x i page byte hpage hbyte
      by_cases hsame : x = va
      · rw [hsame, h.absent va i hnone] at hbyte
        cases hbyte
      · exact h.content x i page byte (by simpa [update_of_ne hsame] using hpage) hbyte
    · intro x page v hpage hv hshared hprot
      by_cases hsame : x = va
      · subst hsame
        simp only [update_self, Option.some.injEq] at hpage
        have hv : v = r.view x := Option.some.inj (hv.symm.trans hview)
        subst hv
        obtain ⟨⟨file, pos, bytes⟩, hbacking⟩ := Option.isSome_iff_exists.mp hshared.2
        have hdurable := h.mapped x _ haligned hview hshared.1 file pos bytes hbacking
        rw [← hpage]
        exact ⟨vmaPageFlags_locked hprot hdurable.2, fun i => h.absent x i hnone⟩
      · exact h.quiet x page v (by simpa [update_of_ne hsame] using hpage) hv hshared hprot

/-- The range a new stack goes to is empty and in no region. -/
structure Space.StackRoom (s : Space File Obj) (bytes : Nat) : Prop where
  fits : s.mmapBase + bytes ≤ 2 ^ 48
  vacant : s.Vacant s.mmapBase bytes
  unmapped : ∀ va, va % pageSize = 0 → s.mmapBase ≤ va → va < s.mmapBase + bytes →
    pageAt s.regions va = none

theorem Tidy.threadStack (h : Tidy canWrite s log) {bytes : Nat} (haligned : bytes % pageSize = 0)
    (stack registered : Bool) (hroom : s.StackRoom bytes) :
    Tidy canWrite (threadStack s bytes stack registered) log := by
  have hsum := hroom.fits
  have hpages : bytes / pageSize * pageSize = bytes :=
    Nat.div_mul_cancel (Nat.dvd_of_mod_eq_zero haligned)
  have hcursor : Tidy canWrite { s with mmapBase := s.mmapBase + bytes } log :=
    h.setCursor (aligned_add h.cursor haligned)
  have hmem : ∀ va, va ∈ userPages s.mmapBase (bytes / pageSize) ↔
      va % pageSize = 0 ∧ s.mmapBase ≤ va ∧ va < s.mmapBase + bytes := by
    intro va
    rw [mem_userPages_iff h.cursor (by rwa [hpages]), hpages]
  have hempty : ∀ va ∈ userPages s.mmapBase (bytes / pageSize), s.pages va = none := by
    intro va hva
    obtain ⟨hkey, hlo, hhi⟩ := (hmem va).mp hva
    exact hroom.vacant va hkey hlo hhi
  simp only [Vma.threadStack, reserve_eq s haligned (lt_word hsum),
    alignUp_of_aligned haligned (by omega)]
  split_ifs
  · exact hcursor
  · refine hcursor.map (fun _ => stackPage) (fun va hva => ?_) hempty ?_
    · obtain ⟨hkey, -, hhi⟩ := (hmem va).mp hva
      exact ⟨hkey, hhi.trans_le hsum⟩
    intro va hva v hv
    obtain ⟨hkey, hlo, hhi⟩ := (hmem va).mp hva
    rw [hroom.unmapped va hkey hlo hhi] at hv
    cases hv
  · -- a stack that is given back leaves the pages as they were
    rw [Space.without_of_absent (by exact hempty)]
    exact hcursor

theorem Tidy.sysThreadCreate (h : Tidy canWrite s log) (stackSize : Nat) (stack registered : Bool)
    (hroom : s.StackRoom (stackBytes stackSize)) :
    Tidy canWrite (sysThreadCreate s stackSize stack registered).2 log := by
  simp only [Vma.sysThreadCreate]
  split
  · exact h
  · exact h.threadStack (stackBytes_aligned stackSize) stack registered hroom

/-! ## The range of a call -/

end

end InstantOS.Vma

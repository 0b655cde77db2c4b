import InstantOS.Process.RegionMap
import InstantOS.Process.UserMemory

/-!
# Where a mapping without a fixed address lands

`reserveMmapRegion` takes the address of a mapping from a cursor that only moves up.
It never looks at the region list or the page table, so the range is free only as
long as nothing lies at or above the cursor but the main stack at the top of the user
half.  `Confined` is that invariant.

Three calls break it: a fixed mapping above the cursor, a fork, which gives the child
the mappings of its parent and a cursor at its first value, and a mapping so large that
it reaches the stack or drives the cursor around `2 ^ 64`.  `MachineOp.Roomy` excludes them,
and `nonfixed_mmap_is_free` holds along every run of roomy steps.
-/

namespace InstantOS.Vma

open Pmm (pageSize)

variable {File Obj : Type}

/-! ## A predicate of the ends of regions

The edits of the list make regions smaller or take them away; what holds of all parts
of an interval survives them. -/

/-- Every region has ends with `P`. -/
def Spread (P : Nat → Nat → Prop) (list : List (VmaRegion File Obj)) : Prop :=
  ∀ r ∈ list, P r.start r.stop

section

variable {P : Nat → Nat → Prop} (hP : ∀ a b c d, P a d → a ≤ b → c ≤ d → P b c)
  {list : List (VmaRegion File Obj)}

include hP

section

variable (h : Spread P list)

include h

theorem Spread.split (alloc : Bool) (addr : Nat) : Spread P (vmaSplitAt alloc list addr).2 := by
  cases alloc with
  | false => exact h
  | true =>
    refine Base.forall_mem_cutFirst h fun r hr hlo hhi => ?_
    exact ⟨hP _ _ _ _ (h r hr) le_rfl hhi.le, hP _ _ _ _ (h r hr) hlo.le le_rfl⟩

section

variable (allocs : NodeAllocs)

include allocs

theorem Spread.fenced (start stop : Nat) : Spread P (fenced allocs list start stop) :=
  Spread.split hP (.split hP h allocs.atStart start) allocs.atEnd stop

theorem Spread.remove (start length : Nat) :
    Spread P (mmapRemoveRange allocs list start length) := by
  rw [mmapRemoveRange]
  split
  · exact h
  · intro r hr
    exact Spread.fenced hP h allocs start (add64 start length) r (List.mem_of_mem_filter hr)

theorem Spread.protect (start length prot : Nat) :
    Spread P (mmapProtectRange allocs list start length prot).2 := by
  have hfenced := Spread.fenced hP h allocs start (add64 start length)
  refine mmapProtectRange_rule rfl h (.split hP h allocs.atStart start) hfenced fun r hr => ?_
  obtain ⟨t, ht, rfl⟩ := List.mem_map.mp hr
  simpa using hfenced t ht

variable {node : VmaRegion File Obj}

theorem Spread.addNode (length : Nat) (hnode : P node.start node.stop) :
    Spread P (mmapAddNode allocs list length node).2 := by
  have hremoved := Spread.remove hP h allocs node.start length
  rw [mmapAddNode]
  split
  · intro r hr
    rcases Base.mem_place.mp hr with rfl | hr
    · exact hnode
    · exact hremoved r hr
  · exact hremoved

end

/-- The three `mmapAdd` functions refuse some arguments and add a node otherwise. -/
theorem Spread.added {allocs : NodeAllocs} {length : Nat} {refused : Prop} [Decidable refused]
    (hnode : P node.start node.stop) :
    Spread P (if refused then (false, list) else mmapAddNode allocs list length node).2 := by
  split
  · exact h
  · exact .addNode hP h allocs length hnode

end

end

/-! ## The invariant -/

/-- The interval from `a` to `b` ends at or below `top`, or it is part of the main stack
or above it. -/
def Apart (top a b : Nat) : Prop := b ≤ top ∨ userStackBase ≤ a

theorem apart_part (top : Nat) : ∀ a b c d, Apart top a d → a ≤ b → c ≤ d → Apart top b c := by
  intro a b c d h hab hcd
  exact h.imp hcd.trans fun hle => hle.trans hab

/-- Nothing is mapped between `top` and the main stack. -/
structure Confined (top : Nat) (s : Space File Obj) : Prop where
  regions : Spread (Apart top) s.regions
  pages : ∀ va, (s.pages va).isSome → va < top ∨ userStackBase ≤ va

variable {top pages length virt : Nat} {s : Space File Obj} {allocs : NodeAllocs}

theorem Confined.mono {top' : Nat} (h : Confined top s) (hle : top ≤ top') : Confined top' s :=
  ⟨fun r hr => (h.regions r hr).imp_left fun hstop => hstop.trans hle,
    fun va hva => (h.pages va hva).imp_left fun hlt => hlt.trans_le hle⟩

theorem Confined.without (h : Confined top s)
    (addrs : List Nat) : Confined top (s.without addrs) := by
  refine ⟨h.regions, fun va hva => h.pages va ?_⟩
  simp only [Space.without] at hva
  split at hva
  · simp at hva
  · exact hva

variable {t : Space File Obj}

/-- New regions, the same pages; the cursor does not matter. -/
theorem Confined.congr (h : Confined top s)
    (hpages : t.pages = s.pages) (hregions : Spread (Apart top) t.regions) : Confined top t :=
  ⟨hregions, hpages ▸ h.pages⟩

theorem mem_userPages {base va : Nat} (hfit : base + pages * pageSize ≤ 2 ^ 48)
    (h : va ∈ userPages base pages) : base ≤ va ∧ va < base + pages * pageSize := by
  obtain ⟨i, hi, rfl⟩ := List.mem_map.mp h
  have hi : i < pages := List.mem_range.mp hi
  have hnext : (i + 1) * pageSize ≤ pages * pageSize := Nat.mul_le_mul_right _ hi
  have hpage : 0 < pageSize := by decide
  rw [Nat.add_mul] at hnext
  rw [Nat.mod_eq_of_lt (by omega)]
  omega

/-- Pages mapped into an interval that is apart keep the invariant. -/
theorem Confined.map (h : Confined top s) {base : Nat}
    (hfit : base + pages * pageSize ≤ 2 ^ 48) (hapart : Apart top base (base + pages * pageSize))
    (contents : Nat → Option Page) : Confined top
      { s with pages := fun va => if va ∈ userPages base pages then contents va
        else s.pages va } := by
  refine ⟨h.regions, fun va hva => ?_⟩
  simp only at hva
  split at hva
  case isTrue hmem =>
    obtain ⟨hlo, hhi⟩ := mem_userPages hfit hmem
    exact hapart.imp hhi.trans_le fun hle => hle.trans hlo
  case isFalse => exact h.pages va hva

/-! ## The calls -/

/-- The invariant of an address space: nothing lies at or above the cursor but the
stack, and the cursor is page-aligned. -/
structure Steady (s : Space File Obj) : Prop where
  confined : Confined s.mmapBase s
  aligned : s.mmapBase % pageSize = 0

/-- The range of a mapping of `bytes` bytes does not get in the way of the cursor: a fixed
one lies below the cursor or in the stack, the next one ends below the stack, or so far
above it that the call refuses it. -/
def RangeRoomy (s : Space File Obj) (addr bytes : Nat) : Prop :=
  if addr = 0 then
    s.mmapBase + bytes ≤ userStackBase ∨
      (userEnd < s.mmapBase + bytes ∧ s.mmapBase + bytes < 2 ^ 64)
  else Apart s.mmapBase addr (addr + bytes)

variable {bytes : Nat}

theorem alignUp_of_aligned (hbytes : bytes % pageSize = 0) (hlt : bytes < 2 ^ 64) :
    alignUp bytes pageSize = bytes := by
  simp only [alignUp, add64, pageSize] at hbytes ⊢
  omega

theorem stackBytes_aligned (stackSize : Nat) : stackBytes stackSize % pageSize = 0 := by
  exact Nat.mul_mod_left _ _

theorem reserve_eq (s : Space File Obj) (hbytes : bytes % pageSize = 0)
    (hfit : s.mmapBase + bytes < 2 ^ 64) :
    reserveMmapRegion s bytes = (s.mmapBase, { s with mmapBase := s.mmapBase + bytes }) := by
  rw [reserveMmapRegion, alignUp_of_aligned hbytes (by omega), add64_of_lt hfit]

theorem pageCount_bytes_le (h : length ≤ userEnd) : pageCount length * pageSize ≤ userEnd := by
  simp only [pageCount, add64, pageSize, userEnd] at h ⊢
  omega

theorem pageCount_pos (hzero : length ≠ 0) (hlength : ¬ userEnd < length) :
    pageCount length * pageSize ≠ 0 := by
  simp only [pageCount, add64, pageSize, userEnd] at *
  omega

theorem range_of_not_outsideUser (hbytes : bytes ≤ userEnd)
    (h : outsideUser virt bytes = false) : virt + bytes ≤ userEnd := by
  have hinside := of_decide_eq_false h
  simp only [add64, userEnd] at hinside hbytes ⊢
  omega

/-- A range that the two mmap calls have accepted. -/
theorem accepted_range (hlength : ¬ userEnd < length)
    (hrefused : ¬ (virt = 0 ∨ outsideUser virt (pageCount length * pageSize))) :
    outsideUser virt (pageCount length * pageSize) = false ∧
      virt + pageCount length * pageSize ≤ 2 ^ 48 := by
  have hinside : outsideUser virt (pageCount length * pageSize) = false := by
    simpa using fun hout => hrefused (.inr hout)
  have hend := range_of_not_outsideUser (pageCount_bytes_le (Nat.le_of_not_lt hlength)) hinside
  exact ⟨hinside, hend.trans (by decide)⟩

theorem lt_word {stop : Nat} (h : stop ≤ 2 ^ 48) : stop < 2 ^ 64 := h.trans_lt (by decide)

theorem Steady.reserve (h : Steady s) (hbytes : bytes % pageSize = 0) :
    Steady { s with mmapBase := s.mmapBase + bytes } := by
  have hhigher := h.confined.mono (Nat.le_add_right _ bytes)
  exact ⟨hhigher.congr rfl hhigher.regions, aligned_add h.aligned hbytes⟩

variable {addr : Nat}

/-- Where a mapping goes and what the cursor becomes. -/
theorem Steady.place (h : Steady s) (hroomy : RangeRoomy s addr (pages * pageSize))
    (hplace : mmapPlace s addr (pages * pageSize) = (virt, t)) :
    Steady t ∧ Apart t.mmapBase virt (virt + pages * pageSize) := by
  have hmod : pages * pageSize % pageSize = 0 := Nat.mul_mod_left _ _
  by_cases haddr : addr = 0
  · rw [RangeRoomy, if_pos haddr] at hroomy
    have hfit : s.mmapBase + pages * pageSize < 2 ^ 64 := by
      have hstack : userStackBase < 2 ^ 64 := by decide
      omega
    rw [mmapPlace, if_pos haddr, reserve_eq s hmod hfit] at hplace
    cases hplace
    exact ⟨h.reserve hmod, .inl le_rfl⟩
  · rw [RangeRoomy, if_neg haddr] at hroomy
    rw [mmapPlace, if_neg haddr] at hplace
    cases hplace
    exact ⟨h, hroomy⟩

theorem Steady.replaced (h : Steady s) (allocs : NodeAllocs)
    (addr virt pages : Nat) : Steady (s.replaced allocs addr virt pages) := by
  rw [Space.replaced]
  split
  · exact h
  · refine ⟨(h.confined.without _).congr rfl ?_, h.aligned⟩
    exact .remove (apart_part _) h.confined.regions allocs.clearing virt _

/-- A list of regions that are apart takes the place of the old one. -/
theorem Steady.setRegions (h : Steady s)
    {regions : List (VmaRegion File Obj)} (hregions : Spread (Apart s.mmapBase) regions) :
    Steady { s with regions := regions } :=
  ⟨h.confined.congr rfl hregions, h.aligned⟩

@[simp] theorem replaced_mmapBase (allocs : NodeAllocs) (s : Space File Obj)
    (addr virt pages : Nat) : (s.replaced allocs addr virt pages).mmapBase = s.mmapBase := by
  rw [Space.replaced]
  split <;> rfl

section

variable (h : Steady s)

include h

/-- What the two mmap calls know once they have accepted the range. -/
theorem Steady.accepted (allocs : NodeAllocs)
    (hlength : ¬ userEnd < length) (hroomy : RangeRoomy s addr (pageCount length * pageSize))
    (hplace : mmapPlace s addr (pageCount length * pageSize) = (virt, t))
    (hrefused : ¬ (virt = 0 ∨ outsideUser virt (pageCount length * pageSize))) :
    Steady (t.replaced allocs addr virt (pageCount length)) ∧
      Apart t.mmapBase virt (virt + pageCount length * pageSize) ∧
      virt + pageCount length * pageSize ≤ 2 ^ 48 := by
  obtain ⟨hplaced, hspot⟩ := h.place hroomy hplace
  exact ⟨hplaced.replaced allocs addr _ _, hspot, (accepted_range hlength hrefused).2⟩

theorem Steady.sysMmap (allocs : NodeAllocs) (prot : Nat)
    (hroomy : RangeRoomy s addr (pageCount length * pageSize)) :
    Steady (sysMmap allocs s addr length prot).space := by
  simp only [Vma.sysMmap]
  split_ifs with hzero halign hlength hrefused
  · exact h
  · exact h
  · exact h
  · exact (h.place hroomy rfl).1
  obtain ⟨hreplaced, hspot, hend⟩ := h.accepted allocs hlength hroomy (Prod.eta _).symm hrefused
  refine hreplaced.setRegions (.added (apart_part _) hreplaced.confined.regions ?_)
  rw [add64_of_lt (lt_word hend), replaced_mmapBase]
  exact hspot

theorem Steady.mapObject (hspot : Apart s.mmapBase virt (virt + pages * pageSize))
    (hend : virt + pages * pageSize ≤ 2 ^ 48) (prot : Nat) (contents : Nat → Nat → BitVec 8) :
    Steady (s.mapObject virt pages prot contents) :=
  ⟨h.confined.map hend hspot _, h.aligned⟩

theorem Steady.without (addrs : List Nat) : Steady (s.without addrs) :=
  ⟨h.confined.without addrs, h.aligned⟩

section

variable (allocs) (hspot : Apart s.mmapBase virt (virt + pages * pageSize))
  (hend : virt + pages * pageSize ≤ 2 ^ 48) (prot : Nat)

include hspot hend

theorem Steady.mmapBuffer (events : List (Event File)) (object : Obj)
    (contents : Nat → Nat → BitVec 8) :
    Steady (mmapBuffer allocs s virt pages prot events object contents).space := by
  have hmapped := h.mapObject hspot hend prot contents
  have hregions : Spread (Apart s.mmapBase) (mmapAddObjectRegion allocs
      (s.mapObject virt pages prot contents).regions virt (pages * pageSize) prot
        (some object)).2 := by
    refine .added (apart_part _) hmapped.confined.regions ?_
    rw [add64_of_lt (lt_word hend)]
    exact hspot
  rw [Vma.mmapBuffer]
  split
  case h_1 regions hadd =>
    rw [hadd] at hregions
    exact hmapped.setRegions hregions
  case h_2 regions hadd =>
    rw [hadd] at hregions
    exact (hmapped.setRegions hregions).without _

theorem Steady.mmapBacked (shared : Bool) (d : Descriptor File Obj) (offset : Nat)
    (events : List (Event File)) :
    Steady (mmapBacked allocs s virt pages prot shared d offset events).space := by
  rw [Vma.mmapBacked]
  split
  case h_1 => exact h
  case h_2 object contents _ => exact h.mmapBuffer allocs hspot hend prot _ object contents
  case h_3 =>
    refine h.setRegions (.added (apart_part _) h.confined.regions ?_)
    rw [add64_of_lt (lt_word hend)]
    exact hspot

end

theorem Steady.sysMmapFile (canWrite : File → Bool)
    (allocs : NodeAllocs) (prot : Nat) (shared : Bool)
    (fd : Option (Descriptor File Obj)) (offset : Nat)
    (hroomy : RangeRoomy s addr (pageCount length * pageSize)) :
    Steady (sysMmapFile canWrite allocs s addr length prot shared fd offset).space := by
  cases fd with
  | none =>
    simp only [Vma.sysMmapFile]
    split_ifs <;> exact h
  | some d =>
    simp only [Vma.sysMmapFile]
    split_ifs with hzero halign hoffset hlength hrefused
    · exact h
    · exact h
    · exact h
    · exact h
    · exact (h.place hroomy rfl).1
    all_goals
      obtain ⟨hreplaced, hspot, hend⟩ := h.accepted allocs hlength hroomy (Prod.eta _).symm hrefused
      rw [← replaced_mmapBase allocs _ addr _ (pageCount length)] at hspot
      exact hreplaced.mmapBacked allocs hspot hend prot shared d offset _

theorem Steady.sysMprotect (allocs : NodeAllocs) (addr length prot : Nat) : Steady
    (sysMprotect allocs s addr length prot).space := by
  rw [Vma.sysMprotect]
  split_ifs
  · exact h
  refine ⟨⟨.protect (apart_part _) h.confined.regions allocs addr _ prot, ?_⟩, h.aligned⟩
  intro va hva
  refine h.confined.pages va ?_
  simp only [Space.protectPages] at hva
  split at hva
  · simpa using hva
  · exact hva

theorem Steady.sysMunmap (canWrite : File → Bool) (allocs : NodeAllocs) (addr length : Nat) :
    Steady (sysMunmap canWrite allocs s addr length).space := by
  rw [Vma.sysMunmap]
  split_ifs
  · exact h
  · exact (h.without _).setRegions (.remove (apart_part _) h.confined.regions allocs addr _)

/-- A page that is faulted in lies in a region. -/
theorem Steady.handleDemandFault
    (read : File → Nat → Nat → List (BitVec 8)) (frame : Bool) (faultAddr : Nat) :
    Steady (handleDemandFault read frame s faultAddr).2 := by
  rcases handleDemandFault_cases read frame s faultAddr with heq | ⟨va, r, _, hcov, _, _, heq⟩
  · rw [heq]
    exact h
  obtain ⟨hmem, hva⟩ := Base.covering_some hcov
  rw [heq]
  refine ⟨⟨h.confined.regions, fun x hx => ?_⟩, h.aligned⟩
  by_cases hsame : x = va
  · rw [hsame]
    exact (h.confined.regions r hmem).imp hva.2.trans_le fun hle => hle.trans hva.1
  · simp only [Function.update_of_ne hsame] at hx
    exact h.confined.pages x hx

theorem Steady.sysThreadCreate (stackSize : Nat)
    (stack registered : Bool) (hroomy : s.mmapBase + stackBytes stackSize ≤ userStackBase) :
    Steady (sysThreadCreate s stackSize stack registered).2 := by
  rw [Vma.sysThreadCreate]
  have haligned := stackBytes_aligned stackSize
  generalize stackBytes stackSize = bytes at hroomy haligned ⊢
  have hstack : userStackBase < 2 ^ 48 := by decide
  have hpages : bytes / pageSize * pageSize = bytes :=
    Nat.div_mul_cancel (Nat.dvd_of_mod_eq_zero haligned)
  split_ifs
  · exact h
  all_goals
    have hreserved := h.reserve haligned
    simp only [threadStack, reserve_eq s haligned (by omega),
      alignUp_of_aligned haligned (by omega)]
    split_ifs
    · exact hreserved
    · refine ⟨hreserved.confined.map ?_ ?_ _, hreserved.aligned⟩
      · rw [hpages]
        omega
      · rw [hpages]
        exact .inl le_rfl
    · exact hreserved.without _

end

/-! ## The machine -/

/-- The address spaces of the processes. -/
abbrev Machine (File Obj : Type) : Type := Nat → Option (Space File Obj)

/-- A new image, a call of a process, or a fork. -/
inductive MachineOp (File Obj : Type)
  | load (pid : Nat) (image : Nat → Option Page)
  | call (pid : Nat) (op : MemCall File Obj)
  | fork (pid child : Nat) (stopped : Option Nat)

/-- One step of the machine. -/
def Machine.step (canWrite : File → Bool) (m : Machine File Obj) :
    MachineOp File Obj → Machine File Obj
  | .load pid image => Function.update m pid (some (.load image))
  | .call pid op =>
    match m pid with
    | none => m
    | some s => Function.update m pid (some (op.run canWrite s).space)
  | .fork pid child stopped =>
    match m pid with
    | none => m
    | some s =>
      match sysFork s stopped with
      | (parent, none) => Function.update m pid (some parent)
      | (parent, some forked) =>
        Function.update (Function.update m pid (some parent)) child (some forked)

/-- The machines that steps with `ok` reach. -/
inductive Ran (canWrite : File → Bool) (ok : Machine File Obj → MachineOp File Obj → Prop) :
    Machine File Obj → Prop
  | start : Ran canWrite ok fun _ => none
  | step {m : Machine File Obj} (h : Ran canWrite ok m) (op : MachineOp File Obj) (hop : ok m op) :
      Ran canWrite ok (m.step canWrite op)

/-- The call leaves the room between the cursor and the stack alone. -/
def MemCall.Roomy (s : Space File Obj) : MemCall File Obj → Prop
  | .mmap _ addr length _ | .mmapFile _ addr length _ _ _ _ =>
    RangeRoomy s addr (pageCount length * pageSize)
  | .thread stackSize _ _ => s.mmapBase + stackBytes stackSize ≤ userStackBase
  | .msync _ _ | .mprotect _ _ _ _ | .munmap _ _ _ | .fault _ _ _ => True

/-- An image lies below the first cursor (or in the stack), calls are roomy, and a process
that forks has nothing mapped above the first cursor but its stack. -/
def MachineOp.Roomy (m : Machine File Obj) : MachineOp File Obj → Prop
  | .load _ image => ∀ va, (image va).isSome → va < mmapBaseDefault ∨ userStackBase ≤ va
  | .call pid op => ∀ s, m pid = some s → op.Roomy s
  | .fork pid _ _ => ∀ s, m pid = some s → Confined mmapBaseDefault s

theorem Steady.run (h : Steady s) (canWrite : File → Bool)
    {op : MemCall File Obj} (hop : op.Roomy s) : Steady (op.run canWrite s).space := by
  cases op with
  | mmap allocs addr length prot => exact h.sysMmap allocs prot hop
  | mmapFile allocs addr length prot shared fd offset =>
    exact h.sysMmapFile canWrite allocs prot shared fd offset hop
  | msync addr length =>
    simp only [MemCall.run, sysMsync]
    split_ifs <;> exact h
  | mprotect allocs addr length prot => exact h.sysMprotect allocs addr length prot
  | munmap allocs addr length => exact h.sysMunmap canWrite allocs addr length
  | fault read frame addr => exact h.handleDemandFault read frame addr
  | thread stackSize stack registered => exact h.sysThreadCreate stackSize stack registered hop

theorem steady_load {image : Nat → Option Page}
    (himage : ∀ va, (image va).isSome → va < mmapBaseDefault ∨ userStackBase ≤ va) :
    Steady (.load image : Space File Obj) := by
  have hbare : Confined mmapBaseDefault
      ({ regions := [], mmapBase := mmapBaseDefault, pages := image } : Space File Obj) :=
    ⟨fun r hr => (nomatch hr), himage⟩
  exact ⟨hbare.map (by decide) (.inr le_rfl) _, (by decide : mmapBaseDefault % pageSize = 0)⟩

theorem Confined.downgraded (h : Confined top s) (bound : Nat) :
    Confined top (s.downgraded bound) := by
  refine ⟨h.regions, fun va hva => h.pages va ?_⟩
  simp only [Space.downgraded] at hva
  split at hva
  · simpa using hva
  · exact hva

/-- Every address space of the machine is steady. -/
def Machine.Steady (m : Machine File Obj) : Prop := ∀ pid s, m pid = some s → Vma.Steady s

variable {m : Machine File Obj}

theorem Machine.Steady.update (h : m.Steady) (pid : Nat) (hs : Vma.Steady s) :
    Machine.Steady (Function.update m pid (some s)) := by
  intro p t ht
  by_cases hp : p = pid
  · subst hp
    rw [Function.update_self] at ht
    cases ht
    exact hs
  · rw [Function.update_of_ne hp] at ht
    exact h p t ht

theorem Machine.Steady.step (h : m.Steady) (canWrite : File → Bool)
    {op : MachineOp File Obj} (hop : op.Roomy m) : (m.step canWrite op).Steady := by
  cases op with
  | load pid image => exact h.update pid (steady_load hop)
  | call pid op =>
    cases hpid : m pid with
    | none => simpa only [Machine.step, hpid] using h
    | some s =>
      simp only [Machine.step, hpid]
      exact h.update pid ((h pid s hpid).run canWrite (hop s hpid))
  | fork pid child stopped =>
    cases hpid : m pid with
    | none => simpa only [Machine.step, hpid] using h
    | some s =>
      have hs := h pid s hpid
      cases stopped with
      | some bound =>
        simp only [Machine.step, hpid]
        exact h.update pid ⟨hs.confined.downgraded bound, hs.aligned⟩
      | none =>
        -- the child starts over with the first cursor, below which its parent has kept
        have hkept := (hop s hpid).downgraded userEnd
        have hchild : Vma.Steady { s.downgraded userEnd with mmapBase := mmapBaseDefault } :=
          ⟨hkept.congr rfl hkept.regions, (by decide : mmapBaseDefault % pageSize = 0)⟩
        have hparent : Vma.Steady (s.downgraded userEnd) :=
          ⟨hs.confined.downgraded userEnd, hs.aligned⟩
        simp only [Machine.step, hpid]
        exact (h.update pid hparent).update child hchild

theorem Ran.steady {canWrite : File → Bool}
    (h : Ran canWrite (fun m op => op.Roomy m) m) : m.Steady := by
  induction h with
  | start => exact fun _ _ hs => (nomatch hs)
  | step _ op hop ih => exact ih.step canWrite hop

/-! ## Landing -/

/-- No region covers `x`, and the page of `x` is not present. -/
def Space.Free (s : Space File Obj) (x : Nat) : Prop :=
  (∀ r ∈ s.regions, ¬ (r.start ≤ x ∧ x < r.stop)) ∧ s.pages (x / pageSize * pageSize) = none

/-- The length of a mapping without a fixed address. -/
def MemCall.wanted : MemCall File Obj → Option Nat
  | .mmap _ addr length _ | .mmapFile _ addr length _ _ _ _ =>
      if addr = 0 then some length else none
  | .msync _ _ | .mprotect _ _ _ _ | .munmap _ _ _ | .fault _ _ _ | .thread _ _ _ => none

/-- An mmap call has got the range at `virt`. -/
structure Landed (s : Space File Obj) (addr length virt : Nat) : Prop where
  fits : ¬ userEnd < length
  place : virt = (mmapPlace s addr (pageCount length * pageSize)).1
  inside : outsideUser virt (pageCount length * pageSize) = false

theorem sysMmap_ok {addr prot : Nat} (h : (sysMmap allocs s addr length prot).result = .ok virt) :
    Landed s addr length virt := by
  simp only [sysMmap] at h
  split_ifs at h with hzero halign hlength hrefused
  simp only [Call.added] at h
  split_ifs at h
  cases h
  exact ⟨hlength, rfl, (accepted_range hlength hrefused).1⟩

variable {events : List (Event File)} {shared : Bool}

theorem mmapBacked_ok {at_ prot : Nat} {d : Descriptor File Obj} {offset : Nat}
    (h : (mmapBacked allocs s at_ pages prot shared d offset events).result = .ok virt) :
    virt = at_ := by
  rw [mmapBacked] at h
  split at h
  · cases h
  · rw [mmapBuffer] at h
    split at h
    · cases h
      rfl
    · cases h
  · simp only [Call.added] at h
    split_ifs at h
    cases h
    rfl

theorem sysMmapFile_ok {canWrite : File → Bool}
    {addr prot : Nat} {fd : Option (Descriptor File Obj)} {offset : Nat}
    (h : (sysMmapFile canWrite allocs s addr length prot shared fd offset).result = .ok virt) :
    Landed s addr length virt := by
  cases fd with
  | none =>
    simp only [sysMmapFile] at h
    split_ifs at h
  | some d =>
    simp only [sysMmapFile] at h
    split_ifs at h with hzero halign hoffset hlength hrefused
    all_goals
      have hvirt := mmapBacked_ok h
      exact ⟨hlength, hvirt, (accepted_range hlength (hvirt ▸ hrefused)).1⟩

/-- A mapping that is granted a place goes to the cursor, and the range it gets is free. -/
theorem Steady.place_free (h : Steady s)
    (hroomy : RangeRoomy s 0 (pageCount length * pageSize)) (hlanded : Landed s 0 length virt)
    {x : Nat} (hlo : virt ≤ x) (hhi : x < virt + pageCount length * pageSize) : s.Free x := by
  have hcursor : virt = s.mmapBase := hlanded.place
  have hend := range_of_not_outsideUser (pageCount_bytes_le (Nat.le_of_not_lt hlanded.fits))
    hlanded.inside
  rw [RangeRoomy, if_pos rfl] at hroomy
  have haligned := h.aligned
  refine ⟨fun r hr hx => ?_, ?_⟩
  · have hr := h.confined.regions r hr
    rw [Apart] at hr
    omega
  · by_contra hpage
    have hva := h.confined.pages _ (Option.isSome_iff_ne_none.mpr hpage)
    simp only [pageSize] at *
    omega

/-- In every run of roomy steps, a mapping without a fixed address gets a range no address
of which is mapped. -/
theorem nonfixed_mmap_is_free {canWrite : File → Bool} {m : Machine File Obj}
    (h : Ran canWrite (fun m op => op.Roomy m) m) {pid : Nat} {s : Space File Obj}
    (hs : m pid = some s) {op : MemCall File Obj} (hop : op.Roomy s) {length virt : Nat}
    (hwanted : op.wanted = some length) (hresult : (op.run canWrite s).result = .ok virt) :
    ∀ x, virt ≤ x → x < virt + pageCount length * pageSize → s.Free x := by
  intro x hlo hhi
  have hsteady := h.steady pid s hs
  cases op with
  | mmap allocs addr len prot =>
    obtain ⟨rfl, rfl⟩ : addr = 0 ∧ len = length := by
      simpa [MemCall.wanted] using hwanted
    exact hsteady.place_free hop (sysMmap_ok hresult) hlo hhi
  | mmapFile allocs addr len prot shared fd offset =>
    obtain ⟨rfl, rfl⟩ : addr = 0 ∧ len = length := by
      simpa [MemCall.wanted] using hwanted
    exact hsteady.place_free hop (sysMmapFile_ok hresult) hlo hhi
  | msync | mprotect | munmap | fault | thread => cases hwanted

/-- A new process that has mapped one page at the cursor. -/
def sampleMapped : Machine Unit Unit :=
  Machine.step (fun _ => true)
    (.step (fun _ => true) (fun _ => none) (.load 1 fun _ => none))
    (.call 1 (.mmap .granted 0 4096 3))

/-- Its address space. -/
def sampleSpace : Space Unit Unit :=
  ((MemCall.mmap .granted 0 4096 3).run (fun _ => true) (Space.load fun _ => none)).space

/-- The next mapping starts on the page behind the first one, which is free. -/
theorem nonfixed_mmap_is_free_sample : sampleSpace.Free 0x600000001000 := by
  have hload : MachineOp.Roomy (fun _ => none)
      (.load 1 fun _ => none : MachineOp Unit Unit) := fun va hva => (nomatch hva)
  have hroomy : ∀ s : Space Unit Unit, s.mmapBase = mmapBaseDefault →
      (MemCall.mmap .granted 0 4096 3).Roomy s := by
    intro s hs
    exact .inl (by rw [hs]; decide)
  have hran : Ran (fun _ => true) (fun m op => op.Roomy m) sampleMapped := by
    refine .step (.step .start _ hload) _ fun s hs => hroomy s ?_
    cases hs
    rfl
  have hnext : (MemCall.mmap .granted 0 4096 3).Roomy sampleSpace := .inl (by decide)
  exact nonfixed_mmap_is_free hran (show sampleMapped 1 = some sampleSpace from rfl) hnext rfl
    (show _ = Except.ok 0x600000001000 from rfl) 0x600000001000 le_rfl (by decide)

/-- A process maps one page at a fixed address above the cursor. -/
def aboveCursor : Machine Unit Unit :=
  Machine.step (fun _ => true)
    (.step (fun _ => true) (fun _ => none) (.load 1 fun _ => none))
    (.call 1 (.mmap .granted 0x600000001000 4096 3))

/-- The next mapping of two pages without a fixed address lands on it. -/
theorem nonfixed_mmap_overlaps :
    ¬ ∀ (m : Machine Unit Unit), Ran (fun _ => true) (fun _ _ => True) m →
      ∀ (pid : Nat) (s : Space Unit Unit) (op : MemCall Unit Unit) (length virt : Nat),
        m pid = some s → op.wanted = some length → (op.run (fun _ => true) s).result = .ok virt →
          ∀ x, virt ≤ x → x < virt + pageCount length * pageSize → s.Free x := by
  intro h
  have hran : Ran (fun _ => true) (fun _ _ => True) aboveCursor :=
    .step (.step .start _ trivial) _ trivial
  have hfree := h aboveCursor hran 1 _ (.mmap .granted 0 8192 3) 8192 0x600000000000 rfl rfl rfl
    0x600000001000 (by decide) (by decide)
  exact hfree.1 _ (List.mem_singleton.mpr rfl) (by decide)

/-! ## A mapping that fails -/

/-- The allocations, the address and the length of an mmap call. -/
def MemCall.target : MemCall File Obj → Option (NodeAllocs × Nat × Nat)
  | .mmap allocs addr length _ => some (allocs, addr, length)
  | .mmapFile allocs addr length _ _ _ _ => some (allocs, addr, length)
  | _ => none

/-- The tests an mmap call makes before it chooses its range. -/
def MemCall.ArgumentsPass : MemCall File Obj → Prop
  | .mmap _ addr length _ => length ≠ 0 ∧ ¬ (addr ≠ 0 ∧ addr % pageSize ≠ 0) ∧ ¬ userEnd < length
  | .mmapFile _ addr length _ _ fd offset =>
    length ≠ 0 ∧ ¬ (addr ≠ 0 ∧ addr % pageSize ≠ 0) ∧ ¬ offset % pageSize ≠ 0 ∧
      ¬ userEnd < length ∧ fd ≠ none
  | _ => False

/-- A call that comes to add its region; an unknown buffer object ends it before. -/
def MemCall.Adds : MemCall File Obj → Prop
  | .mmapFile _ _ _ _ _ (some d) _ => d.drm ≠ some none
  | _ => True

/-- No region has `addr` strictly inside. -/
abbrev Uncut (list : List (VmaRegion File Obj)) (addr : Nat) : Prop :=
  Base.UncutAt VmaRegion.start VmaRegion.stop list addr

/-- The removal of a range finds nothing: no region lies inside, and none crosses an end at
which the split is granted. -/
structure Spared (allocs : NodeAllocs) (list : List (VmaRegion File Obj)) (start stop : Nat) :
    Prop where
  inside : ∀ r ∈ list, r.within start stop = false
  atStart : allocs.atStart = true → Uncut list start
  atEnd : allocs.atEnd = true → Uncut list stop

section

variable {list : List (VmaRegion File Obj)} {start stop : Nat}

/-- How often regions cross an end of the range. -/
def endCrossings (list : List (VmaRegion File Obj)) (start stop : Nat) : Nat :=
  Base.crossings VmaRegion.start VmaRegion.stop list start +
    Base.crossings VmaRegion.start VmaRegion.stop list stop

theorem vmaSplitAt_eq {alloc : Bool} {addr : Nat} (h : alloc = true → Uncut list addr) :
    (vmaSplitAt alloc list addr).2 = list := by
  cases alloc with
  | false => rfl
  | true => exact (h rfl).cutFirst_eq

variable (list) in
/-- A split at an end of the range finds no region to cut or takes a crossing away. -/
theorem endCrossings_split (alloc : Bool) {addr : Nat} (haddr : addr = start ∨ addr = stop) :
    (alloc = true → Uncut list addr) ∨
      endCrossings (vmaSplitAt alloc list addr).2 start stop < endCrossings list start stop := by
  cases alloc with
  | false => exact .inl nofun
  | true =>
    have hcut := Base.crossings_cutFirst (cutsAt_cut addr) (l := list)
    refine (hcut addr).2.imp (fun h _ => h) fun hless => ?_
    rcases haddr with rfl | rfl
    · exact Nat.add_lt_add_of_lt_of_le hless (hcut stop).1
    · exact Nat.add_lt_add_of_le_of_lt (hcut start).1 hless

theorem endCrossings_split_le (alloc : Bool) {addr : Nat} (haddr : addr = start ∨ addr = stop) :
    endCrossings (vmaSplitAt alloc list addr).2 start stop ≤ endCrossings list start stop := by
  rcases endCrossings_split list alloc haddr with h | hless
  · rw [vmaSplitAt_eq h]
  · exact hless.le

theorem endCrossings_filter_le (p : VmaRegion File Obj → Bool) :
    endCrossings (list.filter p) start stop ≤ endCrossings list start stop :=
  Nat.add_le_add List.filter_sublist.countP_le List.filter_sublist.countP_le

variable (list start stop) in
/-- The two splits of a removal cut nothing or take crossings of the ends away. -/
theorem fenced_cases (allocs : NodeAllocs) :
    endCrossings (fenced allocs list start stop) start stop < endCrossings list start stop ∨
      fenced allocs list start stop = list ∧
        (allocs.atStart = true → Uncut list start) ∧ (allocs.atEnd = true → Uncut list stop) := by
  rw [fenced]
  rcases endCrossings_split list allocs.atStart (.inl rfl) with hstart | hless
  · rw [vmaSplitAt_eq hstart]
    rcases endCrossings_split list allocs.atEnd (.inr rfl) with hstop | hless
    · exact .inr ⟨vmaSplitAt_eq hstop, hstart, hstop⟩
    · exact .inl hless
  · exact .inl ((endCrossings_split_le allocs.atEnd (.inr rfl)).trans_lt hless)

variable {length : Nat} (hstop : add64 start length = stop) (hzero : length ≠ 0)

include hstop hzero

theorem Spared.removed {allocs : NodeAllocs} (h : Spared allocs list start stop) :
    mmapRemoveRange allocs list start length = list := by
  rw [mmapRemoveRange_eq allocs hstop hzero, fenced, vmaSplitAt_eq h.atStart,
    vmaSplitAt_eq h.atEnd]
  exact List.filter_eq_self.mpr fun r hr => by rw [h.inside r hr]; rfl

theorem mem_removed {allocs : NodeAllocs} {r : VmaRegion File Obj}
    (hr : r ∈ mmapRemoveRange allocs list start length) : r.within start stop = false := by
  rw [mmapRemoveRange_eq allocs hstop hzero] at hr
  simpa using List.of_mem_filter hr

variable (list) in
/-- A removal makes no crossings, and less of them if it cuts something. -/
theorem endCrossings_removed (allocs : NodeAllocs) :
    endCrossings (mmapRemoveRange allocs list start length) start stop ≤
        endCrossings list start stop ∧
      (endCrossings list start stop ≤
          endCrossings (mmapRemoveRange allocs list start length) start stop →
        (allocs.atStart = true → Uncut list start) ∧ (allocs.atEnd = true → Uncut list stop)) := by
  have hle : endCrossings ((fenced allocs list start stop).filter fun r => !r.within start stop)
      start stop ≤ endCrossings (fenced allocs list start stop) start stop :=
    endCrossings_filter_le _
  rw [mmapRemoveRange_eq allocs hstop hzero]
  rcases fenced_cases list start stop allocs with hless | ⟨hfenced, hends⟩
  · exact ⟨by omega, by omega⟩
  · rw [hfenced] at hle ⊢
    exact ⟨hle, fun _ => hends⟩

theorem removed_iff {allocs : NodeAllocs} :
    mmapRemoveRange allocs list start length = list ↔ Spared allocs list start stop := by
  refine ⟨fun hsame => ?_, fun h => h.removed hstop hzero⟩
  obtain ⟨hstart, hend⟩ := (endCrossings_removed list hstop hzero allocs).2 (by rw [hsame])
  exact ⟨fun r hr => mem_removed hstop hzero (hsame.symm ▸ hr), hstart, hend⟩

/-- A second removal does not bring back what the first one took. -/
theorem removed_twice_iff {allocs allocs' : NodeAllocs} :
    mmapRemoveRange allocs' (mmapRemoveRange allocs list start length) start length = list ↔
      Spared allocs list start stop ∧ Spared allocs' list start stop := by
  constructor
  · intro hsame
    have hback := (endCrossings_removed (mmapRemoveRange allocs list start length) hstop hzero
      allocs').1
    rw [hsame] at hback
    obtain ⟨hstart, hend⟩ := (endCrossings_removed list hstop hzero allocs).2 hback
    have hfirst : Spared allocs list start stop :=
      ⟨fun r hr => mem_removed hstop hzero (hsame.symm ▸ hr), hstart, hend⟩
    rw [hfirst.removed hstop hzero] at hsame
    exact ⟨hfirst, (removed_iff hstop hzero).mp hsame⟩
  · rintro ⟨hfirst, hsecond⟩
    rw [hfirst.removed hstop hzero, hsecond.removed hstop hzero]

end

/-- The end of an mmap call keeps the cursor.  Where it fails, the removal that comes with the
new region has been made, and the pages are those before it or without the range. -/
structure Call.Ends (allocs : NodeAllocs) (adds : Prop) (virt pages : Nat) (s : Space File Obj)
    (call : Call File Obj) : Prop where
  cursor : call.space.mmapBase = s.mmapBase
  failed : ∀ e, call.result = .error e →
    (adds ∧ call.space.regions = mmapRemoveRange allocs s.regions virt (pages * pageSize) ∨
      ¬ adds ∧ call.space.regions = s.regions) ∧
    (call.space.pages = s.pages ∨ call.space.pages = (s.without (userPages virt pages)).pages)

section

variable {canWrite : File → Bool} {op : MemCall File Obj} {allocs : NodeAllocs}
  {s : Space File Obj} {addr length prot pages : Nat}

/-- A region that cannot be added is removed from the list like any other. -/
theorem unadded {list : List (VmaRegion File Obj)} {refused : Prop} [Decidable refused]
    (hrefused : refused → length = 0)
    (hfail : (if refused then (false, list) else mmapAddNode allocs list length node).1 = false) :
    (if refused then (false, list) else mmapAddNode allocs list length node).2 =
      mmapRemoveRange allocs list node.start length := by
  split at hfail
  case isTrue h => rw [if_pos h, mmapRemoveRange, if_pos (hrefused h)]
  case isFalse h =>
    unfold mmapAddNode at hfail ⊢
    rw [if_neg h]
    split at hfail
    · cases hfail
    case isFalse hnode => rw [if_neg hnode]

theorem Call.ends_added {added : Bool × List (VmaRegion File Obj)} {adds : Prop} (hadds : adds)
    (hadded : added.1 = false →
      added.2 = mmapRemoveRange allocs s.regions addr (pages * pageSize)) :
    Call.Ends allocs adds addr pages s (.added addr s events added) where
  cursor := rfl
  failed e herr := by
    unfold Call.added at herr ⊢
    cases hfail : added.1 with
    | false => exact ⟨.inl ⟨hadds, hadded hfail⟩, .inl rfl⟩
    | true =>
      rw [hfail] at herr
      cases herr

theorem Call.ends_mmapBacked {d : Descriptor File Obj} {offset : Nat} :
    Call.Ends allocs (d.drm ≠ some none) addr pages s
      (mmapBacked allocs s addr pages prot shared d offset events) := by
  unfold mmapBacked
  split
  case h_1 hdrm => exact ⟨rfl, fun _ _ => ⟨.inr ⟨fun h => h hdrm, rfl⟩, .inl rfl⟩⟩
  case h_2 object contents hdrm =>
    cases hadd : mmapAddObjectRegion allocs s.regions addr (pages * pageSize) prot
        (some object) with
    | mk ok regions
    simp only [mmapBuffer, Space.mapObject, hadd]
    cases ok with
    | true => exact ⟨rfl, fun _ herr => nomatch herr⟩
    | false =>
      have hregions : regions = mmapRemoveRange allocs s.regions addr (pages * pageSize) :=
        (congrArg Prod.snd hadd).symm.trans (unadded (by simp) (congrArg Prod.fst hadd))
      refine ⟨rfl, fun _ _ => ⟨.inl ⟨by simp [hdrm], hregions⟩, .inr ?_⟩⟩
      -- the pages of the object lie in the range
      funext va
      by_cases hva : va ∈ userPages addr pages <;> simp [Space.without, hva]
  case h_3 hdrm => exact Call.ends_added (by simp [hdrm]) (unadded id)

variable (canWrite) in
/-- An mmap call fails its tests, fails on its range, or comes to its end. -/
theorem MemCall.run_target (hop : op.target = some (allocs, addr, length)) {virt : Nat}
    (hplace : mmapPlace s addr (pageCount length * pageSize) = (virt, t)) :
    ¬ op.ArgumentsPass ∧ (op.run canWrite s).space = s ∨
      (op.ArgumentsPass ∧ length ≠ 0 ∧ ¬ userEnd < length) ∧
        ((virt = 0 ∨ outsideUser virt (pageCount length * pageSize)) ∧
            (op.run canWrite s).space = t ∨
          ¬ (virt = 0 ∨ outsideUser virt (pageCount length * pageSize)) ∧
            Call.Ends allocs op.Adds virt (pageCount length)
              (t.replaced allocs addr virt (pageCount length)) (op.run canWrite s)) := by
  cases op with
  | mmap _ addr' n prot =>
    cases hop
    simp only [MemCall.run, sysMmap, hplace]
    split_ifs with hzero halign hlength hrefused
    · exact .inl ⟨fun hpass => hpass.1 hzero, rfl⟩
    · exact .inl ⟨fun hpass => hpass.2.1 halign, rfl⟩
    · exact .inl ⟨fun hpass => hpass.2.2 hlength, rfl⟩
    · exact .inr ⟨⟨⟨hzero, halign, hlength⟩, hzero, hlength⟩, .inl ⟨hrefused, rfl⟩⟩
    · exact .inr ⟨⟨⟨hzero, halign, hlength⟩, hzero, hlength⟩,
        .inr ⟨hrefused, Call.ends_added trivial (unadded id)⟩⟩
  | mmapFile _ addr' n prot shared fd offset =>
    cases hop
    cases fd with
    | none =>
      refine .inl ⟨fun hpass => hpass.2.2.2.2 rfl, ?_⟩
      simp only [MemCall.run, sysMmapFile]
      split_ifs <;> rfl
    | some d =>
      simp only [MemCall.run, sysMmapFile, hplace]
      split_ifs with hzero halign hoffset hlength hrefused
      · exact .inl ⟨fun hpass => hpass.1 hzero, rfl⟩
      · exact .inl ⟨fun hpass => hpass.2.1 halign, rfl⟩
      · exact .inl ⟨fun hpass => hpass.2.2.1 hoffset, rfl⟩
      · exact .inl ⟨fun hpass => hpass.2.2.2.1 hlength, rfl⟩
      · exact .inr ⟨⟨⟨hzero, halign, hoffset, hlength, nofun⟩, hzero, hlength⟩,
          .inl ⟨hrefused, rfl⟩⟩
      all_goals exact .inr ⟨⟨⟨hzero, halign, hoffset, hlength, nofun⟩, hzero, hlength⟩,
        .inr ⟨hrefused, Call.ends_mmapBacked⟩⟩
  | _ => cases hop

/-- What a failing call leaves of a range at a fixed address is what was there if nothing was. -/
theorem Call.Ends.unchanged_iff {adds : Prop} {call : Call File Obj} {e : SysErr}
    (h : Call.Ends allocs adds addr pages (s.replaced allocs addr addr pages) call)
    (haddr : addr ≠ 0) (hzero : pages * pageSize ≠ 0) (hfit : addr + pages * pageSize < 2 ^ 64)
    (herr : call.result = .error e) :
    call.space = s ↔ (∀ va ∈ userPages addr pages, s.pages va = none) ∧
      Spared allocs.clearing s.regions addr (addr + pages * pageSize) ∧
      (adds → Spared allocs s.regions addr (addr + pages * pageSize)) := by
  have hstop := add64_of_lt hfit
  have hcursor : call.space.mmapBase = s.mmapBase := by rw [h.cursor, replaced_mmapBase]
  obtain ⟨hregions, hpages⟩ := h.failed e herr
  rw [Space.replaced, if_neg haddr] at hregions hpages
  have hpages : call.space.pages = (s.without (userPages addr pages)).pages := by
    refine hpages.elim id fun hpages => hpages.trans (funext fun va => ?_)
    by_cases hva : va ∈ userPages addr pages <;> simp [Space.without, hva]
  have hspace : call.space = s ↔
      (s.without (userPages addr pages)).pages = s.pages ∧ call.space.regions = s.regions := by
    rw [← hpages]
    constructor
    · intro heq
      rw [heq]
      exact ⟨rfl, rfl⟩
    · rintro ⟨hp, hr⟩
      cases hcall : call.space with | mk regions mmapBase pages
      cases s
      simp_all
  have habsent : (s.without (userPages addr pages)).pages = s.pages ↔
      ∀ va ∈ userPages addr pages, s.pages va = none := by
    refine ⟨fun heq va hva => ?_, fun habsent => by rw [Space.without_of_absent habsent]⟩
    rw [← heq]
    exact if_pos hva
  rw [hspace, habsent]
  refine and_congr_right fun _ => ?_
  rcases hregions with ⟨hadds, hregions⟩ | ⟨hno, hregions⟩
  · rw [hregions, removed_twice_iff hstop hzero]
    simp [hadds]
  · rw [hregions, removed_iff hstop hzero]
    simp [hno]

/-- **A failing mmap call changes nothing exactly if** it fails a test made before the range is
chosen, or has a fixed address and either the range is refused or nothing is found to clear
there: no page of it is present, no region lies inside, and none crosses an end at which the
call could split it. -/
theorem failed_mmap_unchanged {e : SysErr} (hop : op.target = some (allocs, addr, length))
    (herr : (op.run canWrite s).result = .error e) :
    (op.run canWrite s).space = s ↔ ¬ op.ArgumentsPass ∨ addr ≠ 0 ∧
      (outsideUser addr (pageCount length * pageSize) = true ∨
        (∀ va ∈ userPages addr (pageCount length), s.pages va = none) ∧
        Spared allocs.clearing s.regions addr (addr + pageCount length * pageSize) ∧
        (op.Adds → Spared allocs s.regions addr (addr + pageCount length * pageSize))) := by
  cases hplace : mmapPlace s addr (pageCount length * pageSize) with | mk virt t
  rcases MemCall.run_target canWrite hop hplace with
    ⟨hpass, hsame⟩ | ⟨⟨hpass, hzero, hlength⟩, hend⟩
  · exact iff_of_true hsame (.inl hpass)
  rw [or_iff_right (not_not.mpr hpass)]
  by_cases haddr : addr = 0
  · subst haddr
    refine iff_of_false (fun hsame => ?_) fun h => h.1 rfl
    rw [hsame, Space.replaced, if_pos rfl] at hend
    have hcursor : s.mmapBase = t.mmapBase := by
      rcases hend with ⟨-, heq⟩ | ⟨-, hends⟩
      · rw [heq]
      · rw [← hends.cursor, hsame]
    -- the cursor moved by at least a page
    cases hplace
    simp only [pageCount, add64, alignUp, pageSize, userEnd] at hlength hcursor
    omega
  · obtain ⟨rfl, rfl⟩ : addr = virt ∧ s = t := by
      simpa only [mmapPlace, if_neg haddr, Prod.mk.injEq] using hplace
    rw [and_iff_right haddr]
    rcases hend with ⟨hrefused, hsame⟩ | ⟨haccepted, hends⟩
    · exact iff_of_true hsame (.inl (hrefused.resolve_left haddr))
    · obtain ⟨hinside, hfit⟩ := accepted_range hlength haccepted
      rw [hinside, or_iff_right Bool.false_ne_true]
      exact hends.unchanged_iff haddr (pageCount_pos hzero hlength) (lt_word hfit) herr

end

/-- Without memory for the node a fixed mapping next to another one fails and changes
nothing. -/
theorem failed_mmap_unchanged_sample :
    ((MemCall.mmap ⟨true, true, true, true, false⟩ 0x600000001000 4096 3).run (fun _ => true)
      sampleSpace).space = sampleSpace := by
  have hspared : ∀ allocs, Spared allocs sampleSpace.regions 0x600000001000 0x600000002000 :=
    fun _ => ⟨by decide +kernel, fun _ => by unfold Uncut Base.UncutAt; decide +kernel,
      fun _ => by unfold Uncut Base.UncutAt; decide +kernel⟩
  exact (failed_mmap_unchanged rfl rfl).mpr
    (.inr ⟨by decide, .inr ⟨by decide +kernel, hspared _, fun _ => hspared _⟩⟩)

/-- A request for the whole user half fails and leaves no room behind the cursor. -/
theorem failed_mmap_moves_cursor :
    ¬ ∀ (canWrite : Unit → Bool) (s : Space Unit Unit) (op : MemCall Unit Unit) (e : SysErr),
      op.target ≠ none → (op.run canWrite s).result = .error e → (op.run canWrite s).space = s := by
  intro h
  have hsame := congrArg Space.mmapBase
    (h (fun _ => true) sampleSpace (.mmap .granted 0 (2 ^ 47) 3) .noMemory nofun rfl)
  revert hsame
  decide +kernel

end InstantOS.Vma

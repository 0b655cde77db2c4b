import InstantOS.Memory.VmmMap

/-!
# Unmapping

`unmapLeaf` opens the tables on the way to a page, clears the leaf and detaches
the tables that became empty; `UnmapBatch` frees the detached tables later.
The module shows what remains true through all of it: a detached table is
reached by no root, so freeing it and using its frame again disturbs no address
space, and the only pages that change are those of the range.
-/

namespace InstantOS.Vmm

open Pmm List

variable {R : Family} {m m' m'' : Machine} {r t u : Frame} {p : List Index} {i : Index}

/-! ## What unmapping leaves alone -/

/-- A used frame that is no table, neither reached nor waiting to be freed. -/
structure NonTable (R : Family) (m : Machine) (f : Frame) : Prop where
  used : testFrame m.pmm f.toNat = true
  unreached : ¬ R.Reaches m f
  notDeferred : f ∉ m.deferred

/-- A step that touches table frames only. -/
structure Confined (R : Family) (m m' : Machine) : Prop where
  arenas : m'.arenas = m.arenas
  kfreeCalls : m'.trace.kfreeCalls = m.trace.kfreeCalls
  failure : m.trace.tableFailure = true → m'.trace.tableFailure = true
  total : m'.pmm.totalFrames = m.pmm.totalFrames
  init : m'.pmm.initialized = m.pmm.initialized
  data : ∀ f, NonTable R m f → NonTable R m' f ∧ m'.mem f = m.mem f ∧
    m'.pmm.refcount f.toNat = m.pmm.refcount f.toNat
  calls : ∃ freed, m'.trace.freeCalls = m.trace.freeCalls ++ freed ∧
    ∀ c ∈ freed, ∃ f, ¬ NonTable R m f ∧ c = (addrOf f, 1)

theorem Confined.refl (R : Family) (m : Machine) : Confined R m m :=
  ⟨rfl, rfl, id, rfl, rfl, fun _ h => ⟨h, rfl, rfl⟩, [], by simp, by simp⟩

theorem Confined.trans (h : Confined R m m') (h' : Confined R m' m'') : Confined R m m'' := by
  refine
    { arenas := h'.arenas.trans h.arenas
      kfreeCalls := h'.kfreeCalls.trans h.kfreeCalls
      failure := fun hf => h'.failure (h.failure hf)
      total := h'.total.trans h.total
      init := h'.init.trans h.init
      data := ?_
      calls := ?_ }
  · intro f hf
    obtain ⟨h1, hmem1, href1⟩ := h.data f hf
    obtain ⟨h2, hmem2, href2⟩ := h'.data f h1
    exact ⟨h2, hmem2.trans hmem1, href2.trans href1⟩
  · obtain ⟨l1, hl1, hc1⟩ := h.calls
    obtain ⟨l2, hl2, hc2⟩ := h'.calls
    refine ⟨l1 ++ l2, by rw [hl2, hl1, append_assoc], ?_⟩
    intro c hc
    rcases mem_append.mp hc with hc | hc
    · exact hc1 c hc
    · obtain ⟨f, hf, hcf⟩ := hc2 c hc
      exact ⟨f, fun hn => hf (h.data f hn).1, hcf⟩

theorem Quiet.confined (h : Quiet R m m') : Confined R m m' := by
  refine { h, h.pmm with data := ?_, calls := ⟨[], by rw [h.freeCalls, append_nil], by simp⟩ }
  intro f hf
  have hpmm := h.pmm.used f.toNat hf.used
  have hdata := h.data f hf.used hf.unreached
  exact ⟨⟨hpmm.1, hdata.2, by rw [h.deferred]; exact hf.notDeferred⟩, hdata.1, hpmm.2⟩

/-! ## Freeing detached tables -/

/-- `FreeFrame` reaches one frame only. -/
theorem freeFrame_other (s : Pmm.State) (phys : Nat) {f : Nat} (hf : f ≠ phys / pageSize) :
    testFrame (freeFrame s phys) f = testFrame s f ∧
      (freeFrame s phys).refcount f = s.refcount f := by
  unfold freeFrame
  split
  · exact ⟨rfl, rfl⟩
  dsimp only
  split
  · exact ⟨rfl, rfl⟩
  · exact (dropFrame_spec s _).other hf

theorem freeFrame_shape (s : Pmm.State) (phys : Nat) : SameShape s (freeFrame s phys) := by
  unfold freeFrame
  split
  · exact .refl s
  dsimp only
  split
  · exact .refl s
  · exact (dropFrame_spec s _).shape

/-- What `free_table` does for a table outside of the heap. -/
structure TableFreed (m : Machine) (t : Frame) (m' : Machine) : Prop where
  mem : m'.mem = m.mem
  kernel : m'.kernelPml4 = m.kernelPml4
  heap : m'.heapInitialized = m.heapInitialized
  arenas : m'.arenas = m.arenas
  deferred : m'.deferred = m.deferred
  kfreeCalls : m'.trace.kfreeCalls = m.trace.kfreeCalls
  failure : m'.trace.tableFailure = m.trace.tableFailure
  shape : SameShape m.pmm m'.pmm
  other : ∀ f, f ≠ t.toNat → testFrame m'.pmm f = testFrame m.pmm f ∧
    m'.pmm.refcount f = m.pmm.refcount f
  calls : m'.trace.freeCalls = m.trace.freeCalls ∨
    m'.trace.freeCalls = m.trace.freeCalls ++ [(addrOf t, 1)]

theorem freeTable_spec (hheap : heapContains m (addrOf t).toNat = false) :
    TableFreed m t (freeTable m t) := by
  have hnot : isHeapTable m t = false := by
    unfold isHeapTable
    rw [hheap, Bool.and_false]
  unfold freeTable
  rw [hnot]
  split
  · exact ⟨rfl, rfl, rfl, rfl, rfl, rfl, rfl, .refl _, fun _ _ => ⟨rfl, rfl⟩, .inl rfl⟩
  split
  · exact ⟨rfl, rfl, rfl, rfl, rfl, rfl, rfl, .refl _, fun _ _ => ⟨rfl, rfl⟩, .inl rfl⟩
  refine ⟨rfl, rfl, rfl, rfl, rfl, rfl, rfl, freeFrame_shape _ _, ?_, .inr rfl⟩
  intro f hf
  apply freeFrame_other
  rw [addrOf_toNat]
  show f ≠ t.toNat * 4096 / 4096
  omega

/-- What freeing a list of tables does. -/
structure TablesFreed (m : Machine) (l : List Frame) (m' : Machine) : Prop where
  mem : m'.mem = m.mem
  kernel : m'.kernelPml4 = m.kernelPml4
  heap : m'.heapInitialized = m.heapInitialized
  arenas : m'.arenas = m.arenas
  kfreeCalls : m'.trace.kfreeCalls = m.trace.kfreeCalls
  failure : m'.trace.tableFailure = m.trace.tableFailure
  shape : SameShape m.pmm m'.pmm
  other : ∀ f, (∀ t ∈ l, f ≠ t.toNat) → testFrame m'.pmm f = testFrame m.pmm f ∧
    m'.pmm.refcount f = m.pmm.refcount f
  calls : ∃ freed, m'.trace.freeCalls = m.trace.freeCalls ++ freed ∧
    ∀ c ∈ freed, ∃ t ∈ l, c = (addrOf t, 1)

theorem foldl_freeTable_spec (l : List Frame) :
    ∀ m : Machine, (∀ t ∈ l, heapContains m (addrOf t).toNat = false) →
      TablesFreed m l (l.foldl freeTable m) := by
  induction l with
  | nil =>
    intro m _
    exact ⟨rfl, rfl, rfl, rfl, rfl, rfl, .refl _, fun _ _ => ⟨rfl, rfl⟩, [], by simp, by simp⟩
  | cons t l ih =>
    intro m hheap
    have h1 := freeTable_spec (hheap t mem_cons_self)
    have hheap1 : ∀ u ∈ l, heapContains (freeTable m t) (addrOf u).toNat = false := by
      intro u hu
      unfold heapContains
      rw [h1.arenas]
      exact hheap u (mem_cons_of_mem _ hu)
    have h2 := ih (freeTable m t) hheap1
    rw [foldl_cons]
    refine
      { mem := h2.mem.trans h1.mem
        kernel := h2.kernel.trans h1.kernel
        heap := h2.heap.trans h1.heap
        arenas := h2.arenas.trans h1.arenas
        kfreeCalls := h2.kfreeCalls.trans h1.kfreeCalls
        failure := h2.failure.trans h1.failure
        shape := h1.shape.trans h2.shape
        other := ?_
        calls := ?_ }
    · intro f hf
      have o2 := h2.other f (fun u hu => hf u (mem_cons_of_mem _ hu))
      have o1 := h1.other f (hf t mem_cons_self)
      exact ⟨o2.1.trans o1.1, o2.2.trans o1.2⟩
    · obtain ⟨freed, hfreed, hmem⟩ := h2.calls
      rcases h1.calls with hsame | hcall
      · refine ⟨freed, by rw [hfreed, hsame], ?_⟩
        intro c hc
        obtain ⟨u, hu, hcu⟩ := hmem c hc
        exact ⟨u, mem_cons_of_mem _ hu, hcu⟩
      · refine ⟨(addrOf t, 1) :: freed, by rw [hfreed, hcall, append_assoc]; rfl, ?_⟩
        intro c hc
        rcases mem_cons.mp hc with rfl | hc
        · exact ⟨t, mem_cons_self, rfl⟩
        · obtain ⟨u, hu, hcu⟩ := hmem c hc
          exact ⟨u, mem_cons_of_mem _ hu, hcu⟩

/-- **Finishing a batch** frees what no root reaches. -/
theorem finishBatch_spec (hS : Space R m) :
    Space R (finishBatch m) ∧ Confined R m (finishBatch m) ∧ Outside R m (finishBatch m) ∧
      (finishBatch m).deferred = [] ∧ (finishBatch m).trace.tableFailure = m.trace.tableFailure ∧
      ∀ f, (∀ t ∈ m.deferred, f ≠ t.toNat) →
        testFrame (finishBatch m).pmm f = testFrame m.pmm f := by
  let m₁ := m.deferred.foldl freeTable m
  have hfreed : TablesFreed m m.deferred m₁ :=
    foldl_freeTable_spec m.deferred m fun t ht => (hS.pending t ht).1.notHeap
  have hfinish : finishBatch m = { m₁ with deferred := [] } := rfl
  rw [hfinish]
  have hout : Outside R m { m₁ with deferred := [] } :=
    ⟨hfreed.kernel, hfreed.heap, fun t i _ => by show m₁.mem t i = m.mem t i; rw [hfreed.mem]⟩
  have hcontains : ∀ a, heapContains m₁ a = heapContains m a := by
    intro a
    unfold heapContains
    rw [hfreed.arenas]
  have hkeep : ∀ f : Frame, f ∉ m.deferred → ∀ t ∈ m.deferred, f.toNat ≠ t.toNat := by
    intro f hf t ht heq
    exact hf (BitVec.eq_of_toNat_eq heq ▸ ht)
  refine ⟨hout.space hS ?_ ?_ ?_ ?_, ?_, hout, rfl, hfreed.failure,
    fun f hf => (hfreed.other f hf).1⟩
  · intro v hv
    have hb := hS.backed v hv
    have hnot : v ∉ m.deferred := fun h => (hS.pending v h).2 hv
    refine ⟨hb.nonzero, ?_, ?_⟩
    · exact ((hfreed.other _ (hkeep v hnot)).1).trans hb.used
    · exact (hcontains _).trans hb.notHeap
  · intro v hv
    cases hv
  · rw [hfreed.shape.total]
    exact hS.frames
  · intro f hf hfree
    show heapContains m₁ (f * 4096) = false
    rw [hcontains]
    by_cases hin : ∃ t ∈ m.deferred, f = t.toNat
    · obtain ⟨t, ht, rfl⟩ := hin
      rw [← addrOf_toNat]
      exact (hS.pending t ht).1.notHeap
    have hsame := (hfreed.other f (fun t ht heq => hin ⟨t, ht, heq⟩)).1
    refine hS.heapFrames f ?_ (hsame.symm.trans hfree)
    rw [← hfreed.shape.total]
    exact hf
  · refine { hfreed, hfreed.shape with failure := hfreed.failure.trans, data := ?_, calls := ?_ }
    · intro f hf
      have hsame := hfreed.other f.toNat (hkeep f hf.notDeferred)
      refine ⟨⟨hsame.1.trans hf.used, fun h => hf.unreached ((hout.reaches f).mp h),
        fun h => by cases h⟩, congrFun hfreed.mem f, hsame.2⟩
    · obtain ⟨freed, hcalls, hmem⟩ := hfreed.calls
      refine ⟨freed, hcalls, ?_⟩
      intro c hc
      obtain ⟨t, ht, hct⟩ := hmem c hc
      exact ⟨t, fun hn => hn.notDeferred ht, hct⟩

/-! ## Detaching an empty table -/

/-- Every page of every address space is the page it was. -/
def SamePages (R : Family) (m m' : Machine) : Prop :=
  ∀ r' q, R.Root r' → q.length = 4 → m'.pageAt r' q = m.pageAt r' q

theorem SamePages.trans (h : SamePages R m m') (h' : SamePages R m' m'') : SamePages R m m'' :=
  fun r' q hr' hq => (h' r' q hr' hq).trans (h r' q hr' hq)

/-- A step that keeps every page and, of the address space `r`, every table
that is not below `w`. -/
structure Trimmed (R : Family) (m : Machine) (r : Frame) (w : List Index) (m' : Machine) :
    Prop where
  space : Space R m'
  confined : Confined R m m'
  failure : m'.trace.tableFailure = m.trace.tableFailure
  pages : SamePages R m m'
  owned : ∀ q v, ¬ w <+: q → Owned R m r q v → Owned R m' r q v

theorem Trimmed.refl (hS : Space R m) (r : Frame) (w : List Index) : Trimmed R m r w m :=
  ⟨hS, .refl R m, rfl, fun _ _ _ _ => rfl, fun _ _ _ h => h⟩

/-- Putting a table that no root reaches into the batch. -/
theorem deferFree_spec {m0 : Machine} (hu : Spare R m u) (hconfined : Confined R m0 m)
    (htable : ¬ NonTable R m0 u) :
    Space R (deferFree m u) ∧ Outside R m (deferFree m u) ∧ Confined R m0 (deferFree m u) ∧
      (deferFree m u).trace.tableFailure = m.trace.tableFailure := by
  -- the batch has room, perhaps because it was finished first
  have hroom : ∃ m₁, deferFree m u = { m₁ with deferred := m₁.deferred ++ [u] } ∧ Space R m₁ ∧
      Confined R m m₁ ∧ Outside R m m₁ ∧ m₁.trace.tableFailure = m.trace.tableFailure ∧
      testFrame m₁.pmm u.toNat := by
    unfold deferFree
    by_cases hfull : m.deferred.length = 32
    · rw [if_pos hfull]
      obtain ⟨hS, hc, hout, -, hfail, htest⟩ := finishBatch_spec hu.space
      refine ⟨_, rfl, hS, hc, hout, hfail, ?_⟩
      have hother : ∀ v ∈ m.deferred, u.toNat ≠ v.toNat := by
        intro v hv heq
        obtain rfl := BitVec.eq_of_toNat_eq heq
        exact hu.notDeferred hv
      rw [htest _ hother]
      exact hu.backed.used
    · rw [if_neg hfull]
      exact ⟨m, rfl, hu.space, .refl R m, ⟨rfl, rfl, fun _ _ _ => rfl⟩, rfl, hu.backed.used⟩
  obtain ⟨m₁, hdefer, hS, hc, hout, hfail, hused⟩ := hroom
  rw [hdefer]
  have hout1 : Outside R m₁ { m₁ with deferred := m₁.deferred ++ [u] } :=
    ⟨rfl, rfl, fun _ _ _ => rfl⟩
  have hwhole : Outside R m { m₁ with deferred := m₁.deferred ++ [u] } :=
    { hout with }
  refine ⟨hout1.space hS ?_ ?_ hS.frames hS.heapFrames, hwhole, ?_, hfail⟩
  · intro v hv
    exact { hS.backed v hv with }
  · intro v hv
    rcases mem_append.mp hv with hv | hv
    · have hpend := hS.pending v hv
      exact ⟨{ hpend.1 with }, hpend.2⟩
    obtain rfl := mem_singleton.mp hv
    refine ⟨⟨hu.backed.nonzero, hused, ?_⟩, fun h => hu.unreached ((hout.reaches v).mp h)⟩
    rw [hc.arenas]
    exact hu.backed.notHeap
  · have hboth := hconfined.trans hc
    refine { hboth with data := ?_ }
    intro f hf
    obtain ⟨hn, hmem, href⟩ := hboth.data f hf
    refine ⟨⟨hn.used, fun h => hn.unreached ((hout1.reaches f).mp h), ?_⟩, hmem, href⟩
    intro hin
    rcases mem_append.mp hin with hin | hin
    · exact hn.notDeferred hin
    · exact htable (mem_singleton.mp hin ▸ hf)

theorem mem_indices (i : Index) : i ∈ indices := by
  unfold indices
  rw [mem_map]
  exact ⟨i.toNat, mem_range.mpr i.isLt, BitVec.ofNat_toNat 9 i⟩

theorem isTableEmpty_iff : isTableEmpty m t ↔ ∀ j, has (m.mem t j) present = false := by
  unfold isTableEmpty
  rw [all_eq_true]
  constructor
  · intro h j
    exact Bool.not_eq_true' _ ▸ h j (mem_indices j)
  · intro h j _
    rw [h j]
    rfl

section

variable (hS : Space R m) (hO : Owned R m r p t) (hU : Owned R m r (p ++ [i]) u)
  (hlen : p.length ≤ 2)

include hS hO hU

omit hU in
theorem detached_walk (s : List Index) :
    (m.setEntry ⟨t, i⟩ 0#64).walk r (p ++ i :: s) = m.walk r p ++ [0#64] ∧
      (m.setEntry ⟨t, i⟩ 0#64).tableAt r (p ++ i :: s) = none :=
  (hS.setEntry_leaf hO (child_zero _) fun _ _ => has_zero _).2.2 s

/-- The detached table is reached by nothing. -/
theorem detached_unreached : ¬ R.Reaches (m.setEntry ⟨t, i⟩ 0#64) u := by
  rintro ⟨r', q, hr', hq⟩
  by_cases hthrough : r' = r ∧ p ++ [i] <+: q
  · obtain ⟨rfl, hq'⟩ := hthrough
    obtain ⟨s, rfl⟩ := through_slot hq'
    cases (detached_walk hS hO s).2.symm.trans hq
  · have hold := (hO.walk_elsewhere hS 0#64 hr' hthrough).2.symm.trans hq
    obtain ⟨rfl, rfl⟩ := (hU.exclusive hS).unique r' q hr' hold
    exact hthrough ⟨rfl, prefix_rfl⟩

omit hU in
theorem detached_change : Change R m r (p ++ [i]) (m.setEntry ⟨t, i⟩ 0#64) :=
  Change.leaf hS hO (child_zero _) fun _ _ => has_zero _

/-- The detached table goes into the batch. -/
theorem detached_deferred : Space R (deferFree (m.setEntry ⟨t, i⟩ 0#64) u) ∧
      Outside R (m.setEntry ⟨t, i⟩ 0#64) (deferFree (m.setEntry ⟨t, i⟩ 0#64) u) ∧
      Confined R m (deferFree (m.setEntry ⟨t, i⟩ 0#64) u) ∧
      (deferFree (m.setEntry ⟨t, i⟩ 0#64) u).trace.tableFailure = m.trace.tableFailure := by
  have hchange := detached_change (i := i) hS hO
  have hb := hU.backed hS
  exact deferFree_spec ⟨hchange.space, { hb with },
    detached_unreached hS hO hU, fun h => (hS.pending u h).2 hU.reaches⟩ hchange.quiet.confined
    (fun h => h.unreached hU.reaches)

include hlen in
/-- An empty table has no pages, so it may be left out. -/
theorem detached_pages (hempty : ∀ j, has (m.mem u j) present = false) :
    SamePages R m (m.setEntry ⟨t, i⟩ 0#64) := by
  intro r' q hr' hq
  by_cases hthrough : r' = r ∧ p ++ [i] <+: q
  · obtain ⟨rfl, hw⟩ := hthrough
    obtain ⟨j, s, rfl, -⟩ := split_path hlen hq hw
    have hnew := (detached_walk (i := i) hS hO (j :: s)).1
    rw [hO.pageAt_slot]
    unfold Machine.pageAt Machine.below Radix.below
    rw [hnew, pageOf_append hO.walk_length_eq, hO.child_eq hU.reached]
    simp only [Option.elim_some, Radix.walk_cons, child_eq_none_of_absent (hempty j),
      Option.elim_none, pageOf_leaf, pageOf_table, hempty j, has_zero]
    rfl
  · exact pageAt_eq (hO.walk_elsewhere hS 0#64 hr' hthrough).1

include hlen in
/-- **Detaching an empty table** keeps every page and everything above. -/
theorem detachIfEmpty_spec : Trimmed R m r (p ++ [i]) (detachIfEmpty u ⟨t, i⟩ m) := by
  unfold detachIfEmpty
  split
  · rename_i hempty
    have hpages := detached_pages hS hO hU hlen (isTableEmpty_iff.mp hempty)
    obtain ⟨hS', hout, hc, hfail⟩ := detached_deferred hS hO hU
    refine ⟨hS', hc, hfail, ?_, ?_⟩
    · intro r' q hr' hq
      exact (pageAt_eq (hout.walk hr' q).1).trans (hpages r' q hr' hq)
    · intro q v hq hv
      exact hout.owned ((detached_change hS hO).owned hv hq)
  · exact .refl hS r _

end

/-! ## The way down without promotion -/

theorem Opened.samePages (hO : Owned R m r p t) (hlen : p.length ≤ 2)
    (h : Opened R m r p t i 0#64 u m') : SamePages R m m' := by
  intro r' q hr' hq
  by_cases hthrough : r' = r ∧ p ++ [i] <+: q
  · obtain ⟨rfl, hw⟩ := hthrough
    obtain ⟨j, s, rfl, hs⟩ := split_path hlen hq hw
    rw [h.promotes hO hlen j s hs]
    split
    · rename_i hlarge
      rw [hO.pageAt_slot, BitVec.or_zero,
        Machine.below_none (child_eq_none_of_large hlarge.2.1 hlarge.2.2)]
    · rfl
  · exact pageAt_eq (h.change.elsewhere r' q hr' hthrough).1

theorem Way.samePages (hS : Space R m) (hr : r ∈ R.procs) (h : Way R m r 0#64 p t m')
    (hlen : p.length ≤ 3) : SamePages R m m' := by
  induction h with
  | root => exact fun _ _ _ _ => rfl
  | step way opened ih =>
    simp only [length_append, length_cons] at hlen
    have hO := (way.owned hS hr).1
    exact (ih (by omega)).trans (opened.samePages hO (by omega))

/-- The three tables above the leaf of `va` are owned. -/
structure Descended (R : Family) (m : Machine) (r : Frame) (va : BitVec 64)
    (tables : Frame × Frame × Frame) (m' : Machine) : Prop where
  down : Descent R m r 0#64 [pml4Index va, pdptIndex va, pdIndex va] tables.2.2 m'
  pdpt : Owned R m' r [pml4Index va] tables.1
  pd : Owned R m' r [pml4Index va, pdptIndex va] tables.2.1
  pt : Owned R m' r [pml4Index va, pdptIndex va, pdIndex va] tables.2.2

/-- The way to `va` ends at an entry that is not present, or a table could not
be allocated. -/
def Missed (R : Family) (m : Machine) (r : Frame) (va : BitVec 64) (m' : Machine) : Prop :=
  ∃ p t i m₁, Descent R m r 0#64 p t m₁ ∧ p.length ≤ 2 ∧ p ++ [i] <+: path va ∧
    (has (m₁.mem t i) present = false ∧ m' = m₁ ∨ m' = m₁.tableFailed)

theorem descendTo_spec (hS : Space R m) (hr : r ∈ R.procs) (va : BitVec 64)
    (hscope : R.scope (pml4Index va)) :
    Cmd.Ends (descendTo r va) m (Descended R m r va) (Missed R m r va) := by
  have hscopes : ∀ q, q <+: path va → R.InScope q := fun q hq => inScope_of_onPath hscope hq
  obtain ⟨hpath1, hpath2, hpath3⟩ := onPath va
  have hroot : Owned R m r [] r := Owned.ofRoot hr
  apply Cmd.ends_require_bind
  · intro hp
    have hl := hS.top r hr _ hscope hp
    apply Cmd.ends_bind
    refine (cloneTableIfNeeded_spec hS hroot (by simp) hp hl).mono ?_
      (fun m₁ h => ⟨[], r, pml4Index va, m, .root, by simp, hpath1, .inr h.1⟩)
    intro pdpt m₁ hC
    have h1 := hC.opened hS hroot (by simp) (hscopes _ hpath1) hp hl
    have down1 : Descent R m r 0#64 [pml4Index va] pdpt m₁ := .step .root hp h1
    apply Cmd.ends_bind
    refine (descend_spec h1.change.space h1.owned (by simp) (hscopes _ hpath2) (by simp)
      (fun e he => splits_gib he)).mono ?_
      (fun m2 h => ⟨_, pdpt, pdptIndex va, m₁, down1, by simp, hpath2, h⟩)
    rintro pd m2 ⟨hp2, h2⟩
    have down2 : Descent R m r 0#64 [pml4Index va, pdptIndex va] pd m2 := .step down1 hp2 h2
    apply Cmd.ends_bind
    refine (descend_spec h2.change.space h2.owned (by simp) (hscopes _ hpath3) (by simp)
      (fun e he => splits_mib he)).mono ?_
      (fun m3 h => ⟨_, pd, pdIndex va, m2, down2, by simp, hpath3, h⟩)
    rintro pt m3 ⟨hp3, h3⟩
    have hpdpt := h2.change.owned h1.owned (not_below_slot _ _)
    refine ⟨.step down2 hp3 h3, h3.change.owned hpdpt ?_, h3.change.owned h2.owned ?_, h3.owned⟩
    · intro h
      simpa using h.length_le
    · intro h
      simpa using h.length_le
  · intro hp
    exact ⟨[], r, pml4Index va, m, .root, by simp, hpath1, .inl ⟨hp, rfl⟩⟩

/-- No page lies behind an entry that is not present. -/
theorem Owned.pageAt_absent (hO : Owned R m r p t) (hp : has (m.mem t i) present = false)
    {q : List Index} (hq : p ++ [i] <+: q) : m.pageAt r q = none := by
  obtain ⟨s, rfl⟩ := through_slot hq
  rw [hO.pageAt_slot, Machine.below_none (child_eq_none_of_absent hp), pageOf_leaf, hp]
  rfl

/-- An early return keeps all pages, and the page of `va` is not mapped unless
an allocation failed. -/
theorem Missed.spec {va : BitVec 64} (hS : Space R m) (hr : r ∈ R.procs) (h : Missed R m r va m') :
    Space R m' ∧ Confined R m m' ∧ SamePages R m m' ∧ (m'.trace.tableFailure ∨
        m'.trace.tableFailure = m.trace.tableFailure ∧ m'.pageAt r (path va) = none) := by
  obtain ⟨p, t, i, m₁, down, hlen, hp, hend⟩ := h
  have way := down.way
  obtain ⟨hO, hS1⟩ := way.owned hS hr
  have hconfined := (way.change hS).quiet.confined
  have hpages := way.samePages hS hr (by omega)
  rcases hend with ⟨habsent, rfl⟩ | rfl
  · exact ⟨hS1, hconfined, hpages, .inr ⟨way.failure, hO.pageAt_absent habsent hp⟩⟩
  · have hfailed : Change R m₁ r [] m₁.tableFailed := Change.tableFailed hS1
    exact ⟨hfailed.space, hconfined.trans hfailed.quiet.confined, hpages, .inl rfl⟩

/-! ## Unmapping pages -/

/-- Of the address space `r` the pages in `S` are gone, unless an allocation
failed; all other pages are as they were. -/
structure Unmapped (R : Family) (m : Machine) (r : Frame) (S : List Index → Prop) (m' : Machine) :
    Prop where
  space : Space R m'
  confined : Confined R m m'
  kept : ∀ r' q, R.Root r' → q.length = 4 → ¬ (r' = r ∧ S q) → m'.pageAt r' q = m.pageAt r' q
  gone : ∀ q, q.length = 4 → S q → m'.pageAt r q = none ∨
    m'.trace.tableFailure = true ∧ m'.pageAt r q = m.pageAt r q
  failure : m'.trace.tableFailure = true ∨ m'.trace.tableFailure = m.trace.tableFailure

theorem Unmapped.trans {S S' : List Index → Prop} (hroot : R.Root r) (h : Unmapped R m r S m')
    (h' : Unmapped R m' r S' m'') : Unmapped R m r (fun q => S q ∨ S' q) m'' := by
  refine ⟨h'.space, h.confined.trans h'.confined, ?_, ?_, ?_⟩
  · intro r' q hr' hq hnot
    rw [h'.kept r' q hr' hq (fun hin => hnot ⟨hin.1, .inr hin.2⟩)]
    exact h.kept r' q hr' hq (fun hin => hnot ⟨hin.1, .inl hin.2⟩)
  · intro q hq hin
    -- the second part either leaves a page alone or removes it
    have hlast : m''.pageAt r q = none ∨ m''.pageAt r q = m'.pageAt r q := by
      by_cases hS' : S' q
      · exact (h'.gone q hq hS').imp id And.right
      · exact .inr (h'.kept r q hroot hq (fun hin => hS' hin.2))
    rcases hlast with hnone | hsame
    · exact .inl hnone
    rw [hsame]
    by_cases hSq : S q
    · rcases h.gone q hq hSq with hnone | ⟨hfail, hkept⟩
      · exact .inl hnone
      · exact .inr ⟨h'.confined.failure hfail, hkept⟩
    have hkept := h.kept r q hroot hq (fun hin => hSq hin.2)
    rcases h'.gone q hq (hin.resolve_left hSq) with hnone | ⟨hfail, -⟩
    · exact .inl (hsame.symm.trans hnone)
    · exact .inr ⟨hfail, hkept⟩
  · rcases h'.failure with hfail | hsame
    · exact .inl hfail
    · rw [hsame]
      exact h.failure

theorem Unmapped.congr {S S' : List Index → Prop} (h : Unmapped R m r S m')
    (hiff : ∀ q, S q ↔ S' q) : Unmapped R m r S' m' := by
  obtain rfl : S = S' := funext fun q => propext (hiff q)
  exact h

/-- `unmapLeaf` as a sequence of steps: the way down, clearing the leaf, and
detaching empty tables from the bottom up. -/
theorem unmapLeaf_steps (hS : Space R m) (hr : r ∈ R.procs) (va : BitVec 64)
    (hscope : R.scope (pml4Index va)) :
    Cmd.Ends (unmapLeaf r va) m (fun _ m' => ∃ pdpt pd pt m₁, Descended R m r va (pdpt, pd, pt) m₁ ∧
        m' = detachIfEmpty pdpt ⟨r, pml4Index va⟩ (detachIfEmpty pd ⟨pdpt, pdptIndex va⟩
          (detachIfEmpty pt ⟨pd, pdIndex va⟩ (m₁.setEntry ⟨pt, ptIndex va⟩ 0#64))))
      (Missed R m r va) := by
  apply Cmd.ends_bind
  refine (descendTo_spec hS hr va hscope).mono ?_ (fun m₁ h => h)
  rintro ⟨pdpt, pd, pt⟩ m₁ hdown
  exact ⟨pdpt, pd, pt, m₁, hdown, rfl⟩

section

variable {va : BitVec 64} {pdpt pd pt : Frame} (hS : Space R m) (hr : r ∈ R.procs)
  (hpdpt : Owned R m r [pml4Index va] pdpt) (hpd : Owned R m r [pml4Index va, pdptIndex va] pd)
  (hpt : Owned R m r [pml4Index va, pdptIndex va, pdIndex va] pt)

include hS hr hpdpt hpd hpt

/-- The three detachments after the leaf was cleared. -/
theorem detachAll_spec : Trimmed R m r [pml4Index va, pdptIndex va, pdIndex va]
        (detachIfEmpty pt ⟨pd, pdIndex va⟩ m) ∧
      Trimmed R (detachIfEmpty pt ⟨pd, pdIndex va⟩ m) r [pml4Index va, pdptIndex va]
        (detachIfEmpty pd ⟨pdpt, pdptIndex va⟩ (detachIfEmpty pt ⟨pd, pdIndex va⟩ m)) ∧
      Trimmed R (detachIfEmpty pd ⟨pdpt, pdptIndex va⟩ (detachIfEmpty pt ⟨pd, pdIndex va⟩ m)) r
        [pml4Index va] (detachIfEmpty pdpt ⟨r, pml4Index va⟩ (detachIfEmpty pd ⟨pdpt, pdptIndex va⟩
          (detachIfEmpty pt ⟨pd, pdIndex va⟩ m))) := by
  have hT1 : Trimmed R m r ([pml4Index va, pdptIndex va] ++ [pdIndex va]) _ :=
    detachIfEmpty_spec hS hpd hpt (by simp)
  have hT2 : Trimmed R _ r ([pml4Index va] ++ [pdptIndex va]) _ := detachIfEmpty_spec hT1.space
      (hT1.owned _ _ (fun h => by simpa using h.length_le) hpdpt)
      (hT1.owned _ _ (fun h => by simpa using h.length_le) hpd) (by simp)
  have hT3 : Trimmed R _ r ([] ++ [pml4Index va]) _ :=
    detachIfEmpty_spec (t := r) hT2.space (Owned.ofRoot hr)
      (hT2.owned _ _ (fun h => by simpa using h.length_le)
        (hT1.owned _ _ (fun h => by simpa using h.length_le) hpdpt)) (by simp)
  exact ⟨hT1, hT2, hT3⟩

end

/-- Clearing a leaf leaves the tables above it where they are. -/
theorem Descended.cleared {va : BitVec 64} {pdpt pd pt : Frame} {m₁ : Machine} (hS : Space R m)
    (hr : r ∈ R.procs) (h : Descended R m r va (pdpt, pd, pt) m₁) :
    Space R (m₁.setEntry ⟨pt, ptIndex va⟩ 0#64) ∧
      Owned R (m₁.setEntry ⟨pt, ptIndex va⟩ 0#64) r [pml4Index va] pdpt ∧
      Owned R (m₁.setEntry ⟨pt, ptIndex va⟩ 0#64) r [pml4Index va, pdptIndex va] pd ∧
      Owned R (m₁.setEntry ⟨pt, ptIndex va⟩ 0#64) r
        [pml4Index va, pdptIndex va, pdIndex va] pt := by
  obtain ⟨-, hS1⟩ := h.down.way.owned hS hr
  have hchange := (storeLeaf_spec hS1 h.pt 0#64).1
  have hlong : ∀ q : List Index, q.length < 4 → ¬ path va <+: q := by
    intro q hq h
    have hle := h.length_le
    have hpath : (path va).length = 4 := rfl
    omega
  exact ⟨hchange.space, hchange.owned h.pdpt (hlong _ (by simp)),
    hchange.owned h.pd (hlong _ (by simp)), hchange.owned h.pt (hlong _ (by simp))⟩

theorem unmapLeaf_spec (hS : Space R m) (hr : r ∈ R.procs) (va : BitVec 64)
    (hscope : R.scope (pml4Index va)) :
    Unmapped R m r (fun q => q = path va) ((unmapLeaf r va).exec m) := by
  apply Cmd.Ends.exec
  refine (unmapLeaf_steps hS hr va hscope).mono ?_ ?_
  · rintro _ m' ⟨pdpt, pd, pt, m₁, hdown, hm'⟩
    rw [hm']
    have way := hdown.down.way
    obtain ⟨-, hS1⟩ := way.owned hS hr
    have hpages1 := way.samePages hS hr (by simp)
    obtain ⟨hchange, hpage⟩ := storeLeaf_spec hS1 hdown.pt 0#64
    obtain ⟨hS2, hpdpt, hpd, hpt⟩ := hdown.cleared hS hr
    obtain ⟨hT1, hT2, hT3⟩ := detachAll_spec hS2 hr hpdpt hpd hpt
    have hpages := (hT1.pages.trans hT2.pages).trans hT3.pages
    have hcleared : (m₁.setEntry ⟨pt, ptIndex va⟩ 0#64).trace.tableFailure =
        m.trace.tableFailure := way.failure
    have hfail := (hT3.failure.trans (hT2.failure.trans hT1.failure)).trans hcleared
    refine ⟨hT3.space, ?_, ?_, ?_, .inr hfail⟩
    · exact ((way.change hS).quiet.confined.trans hchange.quiet.confined).trans
        ((hT1.confined.trans hT2.confined).trans hT3.confined)
    · intro r' q hr' hq hne
      rw [← hpages1 r' q hr' hq, ← pageAt_eq (hchange.elsewhere r' q hr' ?_).1]
      · exact hpages r' q hr' hq
      · rintro ⟨rfl, hw⟩
        exact hne ⟨rfl, eq_path_of_onPath hq hw⟩
    · rintro q hq rfl
      refine .inl ((hpages r _ (.inr hr) hq).trans ?_)
      rw [hpage]
      rfl
  · intro m' hmiss
    obtain ⟨hS', hc, hpages, hhere⟩ := hmiss.spec hS hr
    refine ⟨hS', hc, fun r' q hr' hq _ => hpages r' q hr' hq, ?_, hhere.imp id And.left⟩
    rintro q hq rfl
    rcases hhere with hfail | ⟨-, hnone⟩
    · exact .inr ⟨hfail, hpages r _ (.inr hr) hq⟩
    · exact .inl hnone

/-- The pages of a range. -/
def InRange (virtualBase : BitVec 64) (pageCount : Nat) (q : List Index) : Prop :=
  ∃ k, k < pageCount ∧ q = path (virtualBase + BitVec.ofNat 64 (k * 4096))

section

variable (hS : Space R m) (hr : r ∈ R.procs) (virtualBase : BitVec 64) (pageCount : Nat)
  (hscope : ∀ k, k < pageCount → R.scope (pml4Index (virtualBase + BitVec.ofNat 64 (k * 4096))))

include hS hr hscope

/-- The loop of `UnmapRangeFrom`. -/
theorem unmapPages_spec : Unmapped R m r (InRange virtualBase pageCount)
      ((List.range pageCount).foldl (fun m i =>
        (unmapLeaf r (virtualBase + BitVec.ofNat 64 (i * 4096))).exec m) m) := by
  induction pageCount with
  | zero =>
    refine ⟨hS, .refl R m, fun _ _ _ _ _ => rfl, ?_, .inr rfl⟩
    rintro q - ⟨k, hk, -⟩
    cases hk
  | succ n ih =>
    rw [range_succ, foldl_append]
    have hfirst := ih (fun k hk => hscope k (by omega))
    have hlast := unmapLeaf_spec hfirst.space hr _ (hscope n (by omega))
    refine (hfirst.trans (.inr hr) hlast).congr (fun q => ?_)
    constructor
    · rintro (⟨k, hk, rfl⟩ | rfl)
      · exact ⟨k, by omega, rfl⟩
      · exact ⟨n, by omega, rfl⟩
    · rintro ⟨k, hk, rfl⟩
      rcases Nat.lt_succ_iff_lt_or_eq.mp hk with hlt | rfl
      · exact .inl ⟨k, hlt, rfl⟩
      · exact .inr rfl

/-- **`UnmapRangeFrom`** removes the pages of the range and no other page of any
address space. -/
theorem unmapRangeFrom_spec :
    Unmapped R m r (InRange virtualBase pageCount) (unmapRangeFrom m r virtualBase pageCount) ∧
      (unmapRangeFrom m r virtualBase pageCount).deferred = [] := by
  have hne : r ≠ 0 := (hS.backed r ⟨r, [], .inr hr, rfl⟩).nonzero
  unfold unmapRangeFrom
  rw [if_neg hne]
  have hloop := unmapPages_spec hS hr virtualBase pageCount hscope
  obtain ⟨hS', hc, hout, hempty, hfail, -⟩ := finishBatch_spec hloop.space
  refine ⟨⟨hS', hloop.confined.trans hc, ?_, ?_, ?_⟩, hempty⟩
  · intro r' q hr' hq hnot
    exact (pageAt_eq (hout.walk hr' q).1).trans (hloop.kept r' q hr' hq hnot)
  · intro q hq hin
    rw [pageAt_eq (hout.walk (.inr hr) q).1, hfail]
    exact hloop.gone q hq hin
  · rw [hfail]
    exact hloop.failure

end

end InstantOS.Vmm

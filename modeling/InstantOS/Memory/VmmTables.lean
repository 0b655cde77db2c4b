import InstantOS.Memory.VmmUnmap

/-!
# The tables of an address space

Which tables belong to an address space, and that the frames `AllocTable`
handed out for it are exactly those.  `Books` compares the recorded tables with
the owned ones and with the batch of tables waiting to be freed; every step of
`MapPageInto` and `UnmapRangeFrom` keeps the books, except that a missing table
is allocated twice: the first one is cloned at once and nothing refers to it any
more.
-/

namespace InstantOS.Vmm

open Pmm Radix List

variable {R : Family} {m m' : Machine} {r t u v : Frame} {p q w : List Index} {i j : Index}

/-! ## Entries after a change -/

/-- A change below `w` leaves all other entries of all tables alone. -/
theorem Change.entry (h : Change R m r w m') {r' : Frame} (hr' : R.Root r')
    (hv : m.tableAt r' q = some v) (hw : ¬ (r' = r ∧ w <+: q ++ [j])) :
    m'.tableAt r' q = some v ∧ m'.mem v j = m.mem v j := by
  have hq : ¬ (r' = r ∧ w <+: q) := fun hin => hw ⟨hin.1, hin.2.trans (prefix_append q [j])⟩
  have hv' : m'.tableAt r' q = some v := (h.elsewhere r' q hr' hq).2.trans hv
  refine ⟨hv', ?_⟩
  have hwhole := (h.elsewhere r' (q ++ [j]) hr' hw).1
  rw [Machine.walk, Machine.walk, Radix.walk_slot hv' j [], Radix.walk_slot hv j [],
    show walk child m'.mem 4 r' q = walk child m.mem 4 r' q from
      (h.elsewhere r' q hr' hq).1] at hwhole
  have htail := append_cancel_left hwhole
  exact (cons.injEq _ _ _ _ ▸ htail).1

theorem Outside.owned_iff (h : Outside R m m') : Owned R m' r q v ↔ Owned R m r q v := by
  refine ⟨fun hO => ?_, h.owned⟩
  exact hO.same ((h.walk hO.root q).imp Eq.symm Eq.symm)

/-- Ownership does not depend on what happens elsewhere. -/
theorem Change.owned_iff (h : Change R m r w m') (hq : ¬ w <+: q) :
    Owned R m' r q v ↔ Owned R m r q v := by
  refine ⟨fun hO => ?_, fun hO => h.owned hO hq⟩
  exact hO.same ((h.elsewhere r q hO.root fun hw => hq hw.2).imp Eq.symm Eq.symm)

/-- The owner of a table below an owned one goes through a private entry. -/
theorem Owned.parent (hU : Owned R m r (p ++ i :: q) v) :
    ∃ x, Owned R m r p x ∧ has (m.mem x i) privateTable ∧
      ∃ y, child (4 - p.length) (m.mem x i) = some y := by
  have hreached := hU.reached
  rw [Machine.tableAt, tableAt_append] at hreached
  obtain ⟨x, hx, hreached⟩ := Option.bind_eq_some_iff.mp hreached
  obtain ⟨y, hy, -⟩ := Option.bind_eq_some_iff.mp hreached
  have hwalk : m.walk r (p ++ i :: q) =
      m.walk r p ++ m.mem x i :: m.below (4 - p.length) (m.mem x i) q :=
    Radix.walk_slot hx i q
  have hO : Owned R m r p x := by
    refine ⟨hU.proc, ?_, hx, ?_⟩
    · intro k hk
      apply hU.scope k
      cases p with
      | nil => cases hk
      | cons a p => exact hk
    · intro e he
      exact hU.marked e (by rw [hwalk]; exact mem_append_left _ he)
  exact ⟨x, hO, hU.marked _ (by rw [hwalk]; simp), y, hy⟩

section

variable (hO : Owned R m r p t)

include hO

theorem Owned.length_le : p.length ≤ 3 := by
  by_contra hlen
  obtain ⟨d, s, hs⟩ := exists_cons_of_length_pos (l := p.drop 3) (by simp; omega)
  rw [← take_append_drop 3 p, hs] at hO
  obtain ⟨x, -, -, y, hy⟩ := hO.parent
  rw [show 4 - (p.take 3).length = 1 by simp; omega] at hy
  cases hy

theorem Owned.unique (hO' : Owned R m r p u) : t = u :=
  Option.some.inj (hO.reached.symm.trans hO'.reached)

/-- Behind an entry that is not private, or that names no table, nothing is
owned. -/
theorem Owned.not_behind
    (h : has (m.mem t i) privateTable = false ∨ child (4 - p.length) (m.mem t i) = none) :
    ¬ Owned R m r (p ++ i :: q) v := by
  intro hO'
  obtain ⟨y, hy, hmark, z, hz⟩ := hO'.parent
  obtain rfl := hy.unique hO
  rcases h with hpriv | hnone
  · rw [hpriv] at hmark
    cases hmark
  · rw [hnone] at hz
    cases hz

/-- The same, for any list of indices through the entry. -/
theorem Owned.not_through
    (h : has (m.mem t i) privateTable = false ∨ child (4 - p.length) (m.mem t i) = none)
    (hw : p ++ [i] <+: q) : ¬ Owned R m r q v := by
  obtain ⟨s, rfl⟩ := through_slot hw
  exact hO.not_behind h

end

/-- Ownership is read off the table reached and the marks on the way. -/
theorem owned_iff_of_walk (htable : m'.tableAt r q = m.tableAt r q)
    (hmarks : (∀ e ∈ m'.walk r q, has e privateTable) ↔ ∀ e ∈ m.walk r q, has e privateTable) :
    Owned R m' r q v ↔ Owned R m r q v := by
  constructor
  · rintro ⟨hproc, hscope, hreached, hmarked⟩
    exact ⟨hproc, hscope, htable.symm.trans hreached, hmarks.mp hmarked⟩
  · rintro ⟨hproc, hscope, hreached, hmarked⟩
    exact ⟨hproc, hscope, htable.trans hreached, hmarks.mpr hmarked⟩

/-! ## Ownership after opening an entry -/

section

variable {promote : Entry} (hpromote : Promotion promote) (hO : Owned R m r p t)

include hpromote hO

/-- Promotion changes no owner. -/
theorem promoted_owned_iff (hS : Space R m) (htop : p = [] → has (m.mem t i) largePage = false) :
    Owned R (m.setEntry ⟨t, i⟩ (m.mem t i ||| promote)) r q v ↔ Owned R m r q v := by
  by_cases hw : p ++ [i] <+: q
  · obtain ⟨s, rfl⟩ := through_slot hw
    obtain ⟨hwalk, htable⟩ := walk_promoted hS hO hpromote htop s
    apply owned_iff_of_walk htable
    rw [hwalk, hO.walk_slot]
    simp only [forall_mem_append, forall_mem_cons, private_promote hpromote]
  · have hsame := hO.walk_elsewhere hS (m.mem t i ||| promote) hO.root (fun h => hw h.2)
    exact owned_iff_of_walk hsame.2 (by rw [hsame.1])

/-- Opening an entry that was private is a promotion. -/
theorem Opened.private_owned_iff (hS : Space R m) (h : Opened R m r p t i promote u m')
    (hp : has (m.mem t i) present = true) (hl : has (m.mem t i) largePage = false)
    (hpriv : has (m.mem t i) privateTable = true) : Owned R m' r q v ↔ Owned R m r q v := by
  rw [h.promoted hp hl hpriv]
  exact promoted_owned_iff hpromote hO hS (fun _ => hl)

omit hpromote hO in
/-- A table is linked where nothing was owned, and nothing is owned below it. -/
private theorem owned_iff_of_linked (hchange : Change R m r (p ++ [i]) m')
    (hU : Owned R m' r (p ++ [i]) u) (hold : ∀ s v, ¬ Owned R m r (p ++ i :: s) v)
    (hnew : ∀ j s v, ¬ Owned R m' r ((p ++ [i]) ++ j :: s) v) :
    Owned R m' r q v ↔ Owned R m r q v ∨ q = p ++ [i] ∧ v = u := by
  by_cases hw : p ++ [i] <+: q
  · obtain ⟨s, rfl⟩ := hw
    have hnot : ¬ Owned R m r ((p ++ [i]) ++ s) v := by
      rw [append_assoc]
      exact hold s v
    rw [or_iff_right hnot]
    cases s with
    | nil =>
      rw [append_nil]
      constructor
      · intro hO'
        exact ⟨rfl, hO'.unique hU⟩
      · rintro ⟨-, rfl⟩
        exact hU
    | cons j s =>
      refine ⟨fun hO' => absurd hO' (hnew j s v), ?_⟩
      rintro ⟨heq, -⟩
      have hlen := congrArg length heq
      simp only [length_append, length_cons] at hlen
      omega
  · rw [hchange.owned_iff hw, or_iff_left]
    rintro ⟨rfl, -⟩
    exact hw prefix_rfl

/-- **Opening an entry** makes the table below it owned, and no other table. -/
theorem Opened.owned_iff (hS : Space R m) (hlen : p.length ≤ 2)
    (h : Opened R m r p t i promote u m') :
    Owned R m' r q v ↔ Owned R m r q v ∨ q = p ++ [i] ∧ v = u := by
  obtain ⟨x, -, -, hopening⟩ := h.opening
  cases hopening with
  | owned hp hl hpriv _ _ _ _ _ =>
    rw [h.private_owned_iff hpromote hO hS hp hl hpriv, or_iff_left_of_imp]
    rintro ⟨rfl, rfl⟩
    exact (h.private_owned_iff hpromote hO hS hp hl hpriv).mp h.owned
  | cloned hp hl hpriv _ hy _ _ =>
    apply owned_iff_of_linked h.change h.owned
    · intro s v
      exact hO.not_behind (.inl hpriv)
    · intro j s v
      exact h.owned.not_behind (.inl (by rw [hy]; exact has_unmark_private _))
  | created hp _ _ hy _ =>
    apply owned_iff_of_linked h.change h.owned
    · intro s v
      exact hO.not_behind (.inr (child_eq_none_of_absent hp))
    · intro j s v
      exact h.owned.not_behind (.inr (by rw [hy]; exact child_zero _))
  | split _ hn hl _ hy _ _ =>
    apply owned_iff_of_linked h.change h.owned
    · intro s v
      exact hO.not_behind (.inr (child_eq_none_of_large hn hl))
    · intro j s v
      apply h.owned.not_behind
      rw [show 4 - (p ++ [i]).length = 4 - p.length - 1 by
        simp only [length_append, length_cons, length_nil]; omega]
      exact .inr (hy.noChild j)

end

/-! ## Freeing tables -/

/-- The frame allocator only took frames back. -/
structure Releases (s s' : Pmm.State) : Prop where
  shape : SameShape s s'
  test : ∀ f, testFrame s' f = true → testFrame s f = true
  count : ∀ f, s'.refcount f ≤ s.refcount f

theorem Releases.refl (s : Pmm.State) : Releases s s :=
  ⟨.refl s, fun _ h => h, fun _ => Nat.le_refl _⟩

theorem Releases.trans {s s' s'' : Pmm.State} (h : Releases s s') (h' : Releases s' s'') :
    Releases s s'' :=
  ⟨h.shape.trans h'.shape, fun f hf => h.test f (h'.test f hf),
    fun f => Nat.le_trans (h'.count f) (h.count f)⟩

theorem Dropped.releases {s s' : Pmm.State} {frame : Nat} (h : Dropped s frame s') :
    Releases s s' := by
  refine ⟨h.shape, ?_, ?_⟩
  · intro f hf
    by_cases hsame : f = frame
    · subst hsame
      cases h with
      | kept _ => exact hf
      | shared hused _ _ | released hused _ => exact hused
    · rw [← (h.other hsame).1]
      exact hf
  · intro f
    by_cases hsame : f = frame
    · subst hsame
      cases h with
      | kept _ => exact Nat.le_refl _
      | shared _ _ _ => simp
      | released _ _ => simp
    · rw [(h.other hsame).2]

/-- A dropped reference of a frame that has one makes it free. -/
theorem Dropped.clears {s s' : Pmm.State} {frame : Nat} (h : Dropped s frame s')
    (hcount : s.refcount frame ≤ 1) : testFrame s' frame = false := by
  cases h with
  | kept h =>
    rcases h with h | h
    · exact h
    · rw [h] at hcount
      exact absurd hcount (by decide)
  | shared _ _ h => omega
  | released _ _ =>
    show testFrame (clearFrame (setRefcount s frame 0) frame) frame = false
    simp

theorem freeFrame_releases (s : Pmm.State) (phys : Nat) : Releases s (freeFrame s phys) := by
  unfold freeFrame
  split
  · exact .refl s
  dsimp only
  split
  · exact .refl s
  · exact Dropped.releases (dropFrame_spec s _)

/-- Freeing a frame that is referenced once makes it free. -/
theorem freeFrame_clears {s : Pmm.State} {f : Nat} (hinit : s.initialized) (hpos : 0 < f)
    (hbound : f < s.totalFrames) (hcount : s.refcount f ≤ 1) :
    testFrame (freeFrame s (f * 4096)) f = false := by
  have hframe : f * 4096 / pageSize = f := Nat.mul_div_cancel f (by decide)
  unfold freeFrame
  rw [hinit, hframe]
  have hin : ¬ (f = 0 ∨ s.totalFrames ≤ f) := by omega
  rw [if_neg hin]
  exact Dropped.clears (dropFrame_spec s f) hcount

/-- A table that the kernel root does not reach is none of the tables that
`free_table` spares. -/
theorem frameIsKernelTable_eq_false (hkernel : m.kernelPml4 = R.kernel)
    (h : ∀ q, m.tableAt R.kernel q ≠ some t) : frameIsKernelTable m t = false := by
  have hstep : ∀ {n : Nat} {e : Entry}, 1 < n → has e present → has e largePage = false →
      child n e = some (frameOf e) := fun hn hp hl => child_eq_some hn hp (.inr hl)
  by_contra hne
  rw [Bool.not_eq_false] at hne
  unfold frameIsKernelTable at hne
  simp only [Bool.and_eq_true, Bool.or_eq_true, beq_iff_eq, any_eq_true, Bool.not_eq_true',
    hkernel] at hne
  obtain ⟨-, hroot | ⟨i, -, ⟨hp, hl⟩, hframe | ⟨j, -, ⟨hp', hl'⟩, hframe⟩⟩⟩ := hne
  · exact h [] (congrArg some hroot)
  · apply h [i]
    rw [Machine.tableAt, tableAt_cons, hstep (by decide) hp hl, hframe]
    rfl
  · apply h [i, j]
    rw [Machine.tableAt, tableAt_cons, hstep (by decide) hp hl, Option.bind_some,
      tableAt_cons, hstep (by decide) hp' hl', hframe]
    rfl

/-- A table that `free_table` really frees. -/
structure Freeable (m : Machine) (t : Frame) : Prop where
  nonzero : t ≠ 0
  notHeap : heapContains m (addrOf t).toNat = false
  notKernel : frameIsKernelTable m t = false

theorem Freeable.congr (h : Freeable m t) (hmem : m'.mem = m.mem)
    (hkernel : m'.kernelPml4 = m.kernelPml4) (harenas : m'.arenas = m.arenas) : Freeable m' t := by
  obtain ⟨hne, hheap, htable⟩ := h
  unfold heapContains at hheap
  unfold frameIsKernelTable at htable
  rw [← harenas] at hheap
  rw [← hmem, ← hkernel] at htable
  exact ⟨hne, hheap, htable⟩

theorem Freeable.freeTable_eq (h : Freeable m t) :
    (freeTable m t).trace.tables = m.trace.tables.erase t ∧
      (freeTable m t).pmm = freeFrame m.pmm (t.toNat * 4096) := by
  have hnot : isHeapTable m t = false := by
    unfold isHeapTable
    rw [h.notHeap, Bool.and_false]
  unfold freeTable
  rw [if_neg h.nonzero, hnot, h.notKernel]
  refine ⟨rfl, ?_⟩
  show freeFrame m.pmm (addrOf t).toNat = _
  rw [addrOf_toNat]

/-- What freeing the tables of a list does to the records and to the frame
allocator. -/
theorem foldl_freeTable_books (l : List Frame) :
    ∀ m : Machine, (∀ t ∈ l, Freeable m t) → m.trace.tables.Nodup →
      (l.foldl freeTable m).trace.tables = m.trace.tables.filter (fun f => decide (f ∉ l)) ∧
      (l.foldl freeTable m).pmm = l.foldl (fun s t => freeFrame s (t.toNat * 4096)) m.pmm ∧
      Releases m.pmm (l.foldl freeTable m).pmm ∧
      (m.pmm.initialized → ∀ t ∈ l, t.toNat < m.pmm.totalFrames →
        m.pmm.refcount t.toNat ≤ 1 → testFrame (l.foldl freeTable m).pmm t.toNat = false) := by
  induction l with
  | nil =>
    intro m _ _
    exact ⟨by simp, rfl, .refl _, fun _ t ht => by cases ht⟩
  | cons t l ih =>
    intro m hfree hnodup
    have hspec := freeTable_spec (hfree t mem_cons_self).notHeap
    obtain ⟨htables, hpmm⟩ := (hfree t mem_cons_self).freeTable_eq
    have hrel : Releases m.pmm (freeTable m t).pmm := by
      rw [hpmm]
      exact freeFrame_releases _ _
    have hfree1 : ∀ u ∈ l, Freeable (freeTable m t) u := fun u hu =>
      (hfree u (mem_cons_of_mem _ hu)).congr hspec.mem hspec.kernel hspec.arenas
    have hnodup1 : (freeTable m t).trace.tables.Nodup := by
      rw [htables]
      exact hnodup.erase t
    obtain ⟨h1, hfold, h2, h3⟩ := ih (freeTable m t) hfree1 hnodup1
    rw [foldl_cons]
    refine ⟨?_, by rw [hfold, hpmm]; rfl, hrel.trans h2, ?_⟩
    · rw [h1, htables, hnodup.erase_eq_filter, filter_filter]
      apply filter_congr
      intro f _
      rw [Bool.eq_iff_iff]
      simp only [Bool.and_eq_true, decide_eq_true_eq, bne_iff_ne, mem_cons, not_or]
      exact and_comm
    · intro hinit u hu hbound hcount
      rcases mem_cons.mp hu with rfl | hu
      · have hpos : 0 < u.toNat := by
          apply Nat.pos_of_ne_zero
          intro hzero
          exact (hfree u mem_cons_self).nonzero (BitVec.eq_of_toNat_eq (by simpa using hzero))
        have hclear := freeFrame_clears hinit hpos hbound hcount
        rw [← hpmm] at hclear
        cases htest : testFrame (l.foldl freeTable (freeTable m u)).pmm u.toNat with
        | false => rfl
        | true =>
          rw [h2.test _ htest] at hclear
          cases hclear
      · refine h3 ?_ u hu ?_ ?_
        · rw [hrel.shape.init]
          exact hinit
        · rw [hrel.shape.total]
          exact hbound
        · exact Nat.le_trans (hrel.count _) hcount

/-! ## The books -/

/-- A table of the address space `r`: owned, or detached and not yet freed. -/
def Held (R : Family) (m : Machine) (r : Frame) (f : Frame) : Prop :=
  (∃ p, Owned R m r p f) ∨ f ∈ m.deferred

/-- The tables recorded since the records were `base` and the frame allocator
was in the state `s₀` are `new`: used frames with one reference each, and no
other frame was taken. -/
structure Drawn (base : List Frame) (s₀ : Pmm.State) (m : Machine) (new : List Frame) : Prop where
  tables : m.trace.tables = new ++ base
  nodup : (new ++ base).Nodup
  used : ∀ f ∈ new ++ base, testFrame m.pmm f.toNat = true
  single : ∀ f ∈ new, f.toNat < m.pmm.totalFrames ∧ m.pmm.refcount f.toNat = 1
  leaks : ∀ n, testFrame m.pmm n = true → testFrame s₀ n = true ∨ ∃ f ∈ new, f.toNat = n
  init : m.pmm.initialized = true

/-- These tables are the tables of the address space `r`. -/
structure Books (R : Family) (r : Frame) (base : List Frame) (s₀ : Pmm.State) (m : Machine)
    (new : List Frame) : Prop extends Drawn base s₀ m new where
  held : ∀ f, f ∈ new ↔ Held R m r f
  batch : m.deferred.Nodup

section

variable {base new : List Frame} {s₀ : Pmm.State}

/-- A step that neither takes nor frees a table. -/
theorem Drawn.relabel (hD : Drawn base s₀ m new) (htables : m'.trace.tables = m.trace.tables)
    (hpmm : m'.pmm = m.pmm) : Drawn base s₀ m' new := by
  refine ⟨htables.trans hD.tables, hD.nodup, ?_, ?_, ?_, ?_⟩ <;> rw [hpmm]
  exacts [hD.used, hD.single, hD.leaks, hD.init]

theorem Books.relabel (hB : Books R r base s₀ m new) (htables : m'.trace.tables = m.trace.tables)
    (hpmm : m'.pmm = m.pmm) (hheld : ∀ f, Held R m' r f ↔ Held R m r f)
    (hbatch : m'.deferred.Nodup) : Books R r base s₀ m' new :=
  ⟨hB.toDrawn.relabel htables hpmm, fun f => (hB.held f).trans (hheld f).symm, hbatch⟩

/-- A table is taken. -/
theorem Drawn.add (hD : Drawn base s₀ m new) (hgrant : TableTaken m.pmm u m'.pmm)
    (htables : m'.trace.tables = u :: m.trace.tables) : Drawn base s₀ m' (u :: new) := by
  have hfree : testFrame m.pmm u.toNat = false := hgrant.free _ (by omega) (by omega)
  have hfresh : u ∉ new ++ base := by
    intro hmem
    rw [hD.used u hmem] at hfree
    cases hfree
  have hother : ∀ f ∈ new ++ base, ¬ (u.toNat ≤ f.toNat ∧ f.toNat < u.toNat + 1) := by
    intro f hf hrange
    have heq : f = u := BitVec.eq_of_toNat_eq (by omega)
    exact hfresh (heq ▸ hf)
  refine
    { tables := by rw [htables, hD.tables]; rfl
      nodup := nodup_cons.mpr ⟨hfresh, hD.nodup⟩
      used := ?_
      single := ?_
      leaks := ?_
      init := by rw [hgrant.shape.init]; exact hD.init }
  · intro f hf
    rw [hgrant.test, Bool.or_eq_true]
    rcases mem_cons.mp hf with rfl | hf
    · exact .inl (decide_eq_true (by omega))
    · exact .inr (hD.used f hf)
  · intro f hf
    rw [hgrant.shape.total, hgrant.ref]
    rcases mem_cons.mp hf with rfl | hf
    · have hbound := hgrant.bound
      exact ⟨by omega, if_pos (by omega)⟩
    · rw [if_neg (hother f (mem_append_left _ hf))]
      exact hD.single f hf
  · intro n hn
    rw [hgrant.test, Bool.or_eq_true, decide_eq_true_eq] at hn
    rcases hn with hrange | hold
    · exact .inr ⟨u, mem_cons_self, by omega⟩
    · rcases hD.leaks n hold with h | ⟨f, hf, hfn⟩
      · exact .inl h
      · exact .inr ⟨f, mem_cons_of_mem _ hf, hfn⟩

section

variable (hB : Books R r base s₀ m new)

include hB

/-- A table is taken and becomes one of the address space. -/
theorem Books.add
    (hgrant : TableTaken m.pmm u m'.pmm) (htables : m'.trace.tables = u :: m.trace.tables)
    (hheld : ∀ f, Held R m' r f ↔ Held R m r f ∨ f = u) (hbatch : m'.deferred = m.deferred) :
    Books R r base s₀ m' (u :: new) := by
  refine ⟨hB.toDrawn.add hgrant htables, ?_, by rw [hbatch]; exact hB.batch⟩
  intro f
  rw [hheld, mem_cons, hB.held, or_comm]

/-- Opening a present entry keeps the books. -/
theorem Books.opened {promote : Entry} (hS : Space R m)
    (hpromote : Promotion promote) (hO : Owned R m r p t) (hlen : p.length ≤ 2)
    (hp : has (m.mem t i) present) (h : Opened R m r p t i promote u m') :
    ∃ new', Books R r base s₀ m' new' := by
  have hdeferred : m'.deferred = m.deferred := h.change.quiet.deferred
  have hheld : ∀ f, Held R m' r f ↔ Held R m r f ∨ f = u := by
    intro f
    unfold Held
    rw [hdeferred]
    constructor
    · rintro (⟨q, hq⟩ | hdef)
      · rcases (h.owned_iff hpromote hO hS hlen).mp hq with hold | ⟨-, rfl⟩
        · exact .inl (.inl ⟨q, hold⟩)
        · exact .inr rfl
      · exact .inl (.inr hdef)
    · rintro ((⟨q, hq⟩ | hdef) | rfl)
      · exact .inl ⟨q, (h.owned_iff hpromote hO hS hlen).mpr (.inl hq)⟩
      · exact .inr hdef
      · exact .inl ⟨_, h.owned⟩
  obtain ⟨x, -, -, hopening⟩ := h.opening
  cases hopening with
  | owned _ hl hpriv _ _ _ htables hpmm =>
    -- the table was owned before
    have hold : Held R m r u :=
      .inl ⟨p ++ [i], (h.private_owned_iff hpromote hO hS hp hl hpriv).mp h.owned⟩
    refine ⟨new, hB.relabel htables hpmm (fun f => ?_) (by rw [hdeferred]; exact hB.batch)⟩
    rw [hheld, or_iff_left_of_imp]
    rintro rfl
    exact hold
  | cloned _ _ _ _ _ htables hgrant => exact ⟨_, hB.add hgrant htables hheld hdeferred⟩
  | created hnot _ _ _ _ => cases hp.symm.trans hnot
  | split _ _ _ _ _ htables hgrant => exact ⟨_, hB.add hgrant htables hheld hdeferred⟩

/-- A leaf is written to a last table. -/
theorem Books.leaf (hS : Space R m) (hO : Owned R m r p t)
    (hlen : p.length = 3) (e : Entry) : Books R r base s₀ (m.setEntry ⟨t, i⟩ e) new := by
  have hchange : Change R m r (p ++ [i]) (m.setEntry ⟨t, i⟩ e) :=
    Change.leaf hS hO (by rw [hlen]; exact child_one e)
      (fun hnil => by rw [hnil] at hlen; cases hlen)
  refine hB.relabel rfl rfl (fun f => ?_) hB.batch
  apply or_congr_left
  apply exists_congr
  intro q
  by_cases hq : p ++ [i] <+: q
  · -- index lists of owned tables are shorter
    have hlong : ¬ q.length ≤ 3 := by
      have := hq.length_le
      simp only [length_append, length_cons] at this
      omega
    exact ⟨fun h => absurd h.length_le hlong, fun h => absurd h.length_le hlong⟩
  · exact hchange.owned_iff hq

end

/-- Detached tables are tables that `free_table` frees. -/
theorem Space.freeable (hS : Space R m) (hb : Backed m t) (ht : ¬ R.Reaches m t) : Freeable m t :=
  ⟨hb.nonzero, hb.notHeap, frameIsKernelTable_eq_false hS.kernel
    (fun q hq => ht ⟨R.kernel, q, .inl rfl, hq⟩)⟩

/-- **Finishing the batch** keeps the books. -/
theorem Books.finish (hB : Books R r base s₀ m new) (hS : Space R m) :
    Books R r base s₀ (finishBatch m) (new.filter fun f => decide (f ∉ m.deferred)) := by
  have hfreeable : ∀ t ∈ m.deferred, Freeable m t :=
    fun t ht => hS.freeable (hS.pending t ht).1 (hS.pending t ht).2
  have hnodup : m.trace.tables.Nodup := by
    rw [hB.tables]
    exact hB.nodup
  obtain ⟨htables, -, hrel, hclear⟩ := foldl_freeTable_books m.deferred m hfreeable hnodup
  have hfreed := foldl_freeTable_spec m.deferred m (fun t ht => (hS.pending t ht).1.notHeap)
  obtain ⟨-, -, hout, -⟩ := finishBatch_spec hS
  have hnew : ∀ f ∈ m.deferred, f ∈ new := fun f hf => (hB.held f).mpr (.inr hf)
  have hdisjoint : ∀ f ∈ base, f ∉ m.deferred := by
    intro f hf hdef
    exact (nodup_append.mp hB.nodup).2.2 f (hnew f hdef) f hf rfl
  have hother : ∀ f : Frame, f ∉ m.deferred → ∀ t ∈ m.deferred, f.toNat ≠ t.toNat := by
    intro f hf t ht heq
    exact hf (BitVec.eq_of_toNat_eq heq ▸ ht)
  have hsplit : ∀ f ∈ (new.filter fun f => decide (f ∉ m.deferred)) ++ base,
      f ∈ new ++ base ∧ f ∉ m.deferred := by
    intro f hf
    rcases mem_append.mp hf with hf | hf
    · rw [mem_filter, decide_eq_true_eq] at hf
      exact ⟨mem_append_left _ hf.1, hf.2⟩
    · exact ⟨mem_append_right _ hf, hdisjoint f hf⟩
  refine
    { tables := ?_
      nodup := ?_
      used := ?_
      single := ?_
      leaks := ?_
      held := ?_
      batch := nodup_nil
      init := hrel.shape.init.trans hB.init }
  · show (m.deferred.foldl freeTable m).trace.tables = _
    rw [htables, hB.tables, filter_append]
    congr 1
    apply filter_eq_self.mpr
    intro f hf
    exact decide_eq_true (hdisjoint f hf)
  · exact hB.nodup.sublist (filter_sublist.append (List.Sublist.refl base))
  · intro f hf
    show testFrame (m.deferred.foldl freeTable m).pmm f.toNat
    rw [(hfreed.other _ (hother f (hsplit f hf).2)).1]
    exact hB.used f (hsplit f hf).1
  · intro f hf
    rw [mem_filter, decide_eq_true_eq] at hf
    show f.toNat < (m.deferred.foldl freeTable m).pmm.totalFrames ∧
      (m.deferred.foldl freeTable m).pmm.refcount f.toNat = 1
    rw [hrel.shape.total, (hfreed.other _ (hother f hf.2)).2]
    exact hB.single f hf.1
  · intro n hn
    rcases hB.leaks n (hrel.test n hn) with h | ⟨f, hf, rfl⟩
    · exact .inl h
    refine .inr ⟨f, ?_, rfl⟩
    rw [mem_filter, decide_eq_true_eq]
    refine ⟨hf, fun hdef => ?_⟩
    have hsingle := hB.single f hf
    have hgone := hclear hB.init f hdef hsingle.1 (by omega)
    exact absurd hn (by
      show ¬ testFrame (m.deferred.foldl freeTable m).pmm f.toNat
      rw [hgone]
      exact Bool.false_ne_true)
  · intro f
    rw [mem_filter, decide_eq_true_eq, hB.held]
    constructor
    · rintro ⟨⟨q, hq⟩ | hdef, hf⟩
      · exact .inl ⟨q, hout.owned hq⟩
      · exact absurd hdef hf
    · rintro (⟨q, hq⟩ | hdef)
      · have hq := hout.owned_iff.mp hq
        exact ⟨.inl ⟨q, hq⟩, fun hdef => (hS.pending f hdef).2 hq.reaches⟩
      · cases hdef

end

/-! ## Detaching -/

section

variable {base new : List Frame} {s₀ : Pmm.State} (hS : Space R m) (hO : Owned R m r p t)
  (hU : Owned R m r (p ++ [i]) u)

include hS hO

theorem detached_owned_iff :
    Owned R (m.setEntry ⟨t, i⟩ 0#64) r q v ↔ Owned R m r q v ∧ ¬ p ++ [i] <+: q := by
  by_cases hq : p ++ [i] <+: q
  · refine ⟨fun h => ?_, fun h => absurd hq h.2⟩
    obtain ⟨s, rfl⟩ := through_slot hq
    cases (detached_walk hS hO s).2.symm.trans h.reached
  · rw [(detached_change hS hO).owned_iff hq, and_iff_left hq]

include hU

omit hS hO in
/-- Behind an empty table nothing is owned. -/
theorem Owned.eq_of_empty (hempty : ∀ j, has (m.mem u j) present = false)
    (hv : Owned R m r q v) (hq : p ++ [i] <+: q) : v = u := by
  obtain ⟨s, rfl⟩ := hq
  cases s with
  | nil =>
    rw [append_nil] at hv
    exact hv.unique hU
  | cons j s =>
    exact absurd hv (hU.not_behind (.inr (child_eq_none_of_absent (hempty j))))

/-- The tables of the address space stay the same when an empty one goes to the
batch. -/
theorem held_detached (hempty : ∀ j, has (m.mem u j) present = false)
    (hout : Outside R (m.setEntry ⟨t, i⟩ 0#64) m') {D : List Frame}
    (hdef : m'.deferred = D ++ [u]) (f : Frame) :
    Held R m' r f ↔ (∃ q, Owned R m r q f) ∨ f ∈ D := by
  unfold Held
  rw [hdef, mem_append, mem_singleton]
  simp only [hout.owned_iff, detached_owned_iff hS hO]
  constructor
  · rintro (⟨q, hq, -⟩ | hf | rfl)
    · exact .inl ⟨q, hq⟩
    · exact .inr hf
    · exact .inl ⟨_, hU⟩
  · rintro (⟨q, hq⟩ | hf)
    · by_cases hw : p ++ [i] <+: q
      · exact .inr (.inr (hU.eq_of_empty hempty hq hw))
      · exact .inl ⟨q, hq, hw⟩
    · exact .inr (.inl hf)

/-- **Detaching an empty table** keeps the books. -/
theorem Books.detach (hB : Books R r base s₀ m new) :
    ∃ new', Books R r base s₀ (detachIfEmpty u ⟨t, i⟩ m) new' := by
  unfold detachIfEmpty
  split
  case isFalse => exact ⟨new, hB⟩
  case isTrue hempty =>
    rw [isTableEmpty_iff] at hempty
    have hchange := detached_change (i := i) hS hO
    have hout := (detached_deferred hS hO hU).2.1
    by_cases hfull : m.deferred.length = 32
    · have heq : deferFree (m.setEntry ⟨t, i⟩ 0#64) u =
          { finishBatch (m.setEntry ⟨t, i⟩ 0#64) with deferred := [] ++ [u] } := by
        unfold deferFree
        rw [if_pos (show (m.setEntry ⟨t, i⟩ 0#64).deferred.length = 32 from hfull)]
        rfl
      rw [heq] at hout ⊢
      have hnodup : m.trace.tables.Nodup := by
        rw [hB.tables]
        exact hB.nodup
      -- the batch is finished first, with the same effect as before the detachment
      have hbefore := foldl_freeTable_books m.deferred m
        (fun v hv => hS.freeable (hS.pending v hv).1 (hS.pending v hv).2) hnodup
      have hafter := foldl_freeTable_books m.deferred (m.setEntry ⟨t, i⟩ 0#64)
        (fun v hv => hchange.space.freeable (hchange.space.pending v hv).1
          (hchange.space.pending v hv).2) hnodup
      have hout0 := (finishBatch_spec hS).2.2.1
      refine ⟨_, (hB.finish hS).relabel (hafter.1.trans hbefore.1.symm)
        (hafter.2.1.trans hbefore.2.1.symm) (fun f => ?_) (nodup_singleton u)⟩
      rw [held_detached hS hO hU hempty hout rfl]
      unfold Held
      simp only [hout0.owned_iff]
      rfl
    · have heq : deferFree (m.setEntry ⟨t, i⟩ 0#64) u =
          { m.setEntry ⟨t, i⟩ 0#64 with deferred := m.deferred ++ [u] } := by
        unfold deferFree
        rw [if_neg (show ¬ (m.setEntry ⟨t, i⟩ 0#64).deferred.length = 32 from hfull)]
        rfl
      rw [heq] at hout ⊢
      refine ⟨new, hB.relabel rfl rfl ?_ ?_⟩
      · exact held_detached hS hO hU hempty hout rfl
      · rw [← concat_eq_append]
        exact hB.batch.concat fun h => (hS.pending u h).2 hU.reaches

end

end InstantOS.Vmm

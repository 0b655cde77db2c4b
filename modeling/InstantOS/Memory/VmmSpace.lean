import InstantOS.Memory.PmmFrames
import InstantOS.Memory.VmmEntries

/-!
# Address spaces that share tables

The kernel root and the roots of processes live in one memory and share most
of their tables.  `Space` is the invariant that keeps them apart: a table that a
process reaches through private-table entries only is reached by nothing else,
and every reachable table is a used frame outside the heap.

Every edit of the page tables is one of two things: a frame that no root
reaches is written (`Space.setFrame`), or an entry of an owned table is
replaced (`Space.setEntry`).  The walks of all roots after such an edit are
given exactly.
-/

namespace InstantOS.Vmm

open Radix Pmm

/-- The address spaces at one moment: the kernel root, the roots of the
processes, and the top-level indices below which a process edits its
tables. -/
structure Family where
  kernel : Frame
  procs : List Frame
  scope : Index → Prop

namespace Family

def Root (R : Family) (r : Frame) : Prop := r = R.kernel ∨ r ∈ R.procs

/-- The index list stays below the editable part of a root. -/
def InScope (R : Family) (p : List Index) : Prop := ∀ i ∈ p.head?, R.scope i

def Reaches (R : Family) (m : Machine) (t : Frame) : Prop :=
  Radix.Reachable child m.mem 4 R.Root t

end Family

/-- A frame that may hold a page table. -/
structure Backed (m : Machine) (t : Frame) : Prop where
  nonzero : t ≠ 0
  used : testFrame m.pmm t.toNat = true
  notHeap : heapContains m (addrOf t).toNat = false

/-- All address spaces of `R` are well formed and share only what they may
share. -/
structure Space (R : Family) (m : Machine) : Prop where
  kernel : m.kernelPml4 = R.kernel
  separated : Radix.Separated child m.mem 4 R.Root (fun e => has e privateTable)
    (fun r => r ∈ R.procs) R.InScope
  backed : ∀ t, R.Reaches m t → Backed m t
  top : ∀ r ∈ R.procs, ∀ i, R.scope i → has (m.mem r i) present = true →
    has (m.mem r i) largePage = false
  pending : ∀ t ∈ m.deferred, Backed m t ∧ ¬ R.Reaches m t
  frames : m.pmm.totalFrames ≤ 2 ^ 40
  heapFrames : ∀ f, f < m.pmm.totalFrames → testFrame m.pmm f = false →
    heapContains m (f * 4096) = false
  heap : m.heapInitialized = true

/-- The process `r` owns the table `t` it reaches along `p`. -/
structure Owned (R : Family) (m : Machine) (r : Frame) (p : List Index) (t : Frame) : Prop where
  proc : r ∈ R.procs
  scope : R.InScope p
  reached : m.tableAt r p = some t
  marked : ∀ e ∈ m.walk r p, has e privateTable = true

variable {R : Family} {m : Machine} {r t : Frame} {p : List Index} {i : Index}

section

variable (h : Owned R m r p t)

include h

theorem Owned.exclusive (hS : Space R m) : Radix.Exclusive child m.mem 4 R.Root r p t :=
  hS.separated.exclusive h.proc h.scope h.reached h.marked

theorem Owned.root : R.Root r := .inr h.proc

theorem Owned.reaches : R.Reaches m t := ⟨r, p, h.root, h.reached⟩

theorem Owned.backed (hS : Space R m) : Backed m t := hS.backed t h.reaches

end

/-- The root of a process is its own table. -/
theorem Owned.ofRoot (hr : r ∈ R.procs) : Owned R m r [] r := by
  refine ⟨hr, ?_, rfl, ?_⟩
  · intro i hi
    cases hi
  · intro e he
    cases he

abbrev Machine.below (m : Machine) (n : Nat) (e : Entry) (s : List Index) : List Entry :=
  Radix.below child m.mem n e s

abbrev Machine.tableBelow (m : Machine) (n : Nat) (e : Entry) (s : List Index) : Option Frame :=
  Radix.tableBelow child m.mem n e s

section

variable {n : Nat} {e : Entry}

theorem Machine.below_none (h : child n e = none) (s : List Index) : m.below n e s = [] := by
  unfold Machine.below Radix.below
  rw [h]
  rfl

theorem Machine.below_nil : m.below n e [] = [] := by
  unfold Machine.below Radix.below
  cases child n e with
  | none => rfl
  | some u => rfl

theorem Machine.below_congr {e' : Entry} (h : child n e' = child n e) (s : List Index) :
    m.below n e' s = m.below n e s := by
  unfold Machine.below Radix.below
  rw [h]

/-- Below a table entry the walk goes on in its table. -/
theorem Machine.below_table (hn : 1 < n) (hp : has e present) (hl : has e largePage = false)
    (j : Index) (s : List Index) :
    m.below n e (j :: s) = m.mem (frameOf e) j :: m.below (n - 1) (m.mem (frameOf e) j) s := by
  unfold Machine.below Radix.below
  rw [child_eq_some hn hp (.inr hl)]
  rfl

theorem Machine.tableBelow_none (h : child n e = none) (s : List Index) :
    m.tableBelow n e s = none := by
  unfold Machine.tableBelow Radix.tableBelow
  rw [h]
  rfl

theorem Machine.tableAt_concat (h : m.tableAt r p = some t) :
    m.tableAt r (p ++ [i]) = child (4 - p.length) (m.mem t i) := by
  rw [Machine.tableAt, Radix.tableAt_slot h i []]
  unfold Radix.tableBelow
  cases child (4 - p.length) (m.mem t i) with
  | none => rfl
  | some u => rfl

end

/-- Fewer processes, with less to edit. -/
theorem Space.restrict {R' : Family} (hS : Space R m) (hkernel : R'.kernel = R.kernel)
    (hprocs : ∀ r ∈ R'.procs, r ∈ R.procs) (hscope : ∀ i, R'.scope i → R.scope i) : Space R' m := by
  have hroot : ∀ r, R'.Root r → R.Root r := fun r hr =>
    hr.imp (fun h => h.trans hkernel) (hprocs r)
  have hreach : ∀ t, R'.Reaches m t → R.Reaches m t := fun t ⟨r, p, hr, ht⟩ =>
    ⟨r, p, hroot r hr, ht⟩
  refine { hS with
      kernel := hS.kernel.trans hkernel.symm
      separated := ⟨fun r hr => .inr hr, ?_⟩
      backed := fun t ht => hS.backed t (hreach t ht)
      top := fun r hr i hi => hS.top r (hprocs r hr) i (hscope i hi)
      pending := fun t ht => ⟨(hS.pending t ht).1, fun h => (hS.pending t ht).2 (hreach t h)⟩ }
  intro r p t hr hin ht hmarked r' p' hr' ht'
  exact hS.separated.unique r p t (hprocs r hr) (fun i hi => hscope i (hin i hi)) ht hmarked r' p'
    (hroot r' hr') ht'

/-! ## Steps outside of the tables -/

variable {q : List Index} {r' : Frame}

/-- Two machines with the same walks have the same pages. -/
theorem pageAt_eq {m' : Machine}
    (h : m'.walk r' q = m.walk r' q) : m'.pageAt r' q = m.pageAt r' q := by
  unfold Machine.pageAt
  rw [h]

theorem Owned.same {m' : Machine} (hO : Owned R m r p t)
    (h : m'.walk r p = m.walk r p ∧ m'.tableAt r p = m.tableAt r p) : Owned R m' r p t := by
  refine ⟨hO.proc, hO.scope, h.2.trans hO.reached, ?_⟩
  rw [h.1]
  exact hO.marked

/-- A step that leaves all reachable tables alone. -/
structure Outside (R : Family) (m m' : Machine) : Prop where
  kernel : m'.kernelPml4 = m.kernelPml4
  heap : m'.heapInitialized = m.heapInitialized
  agree : ∀ t i, R.Reaches m t → m'.mem t i = m.mem t i

namespace Outside

variable {m' : Machine} (h : Outside R m m')

include h

theorem walk (hr' : R.Root r') (q : List Index) :
    m'.walk r' q = m.walk r' q ∧ m'.tableAt r' q = m.tableAt r' q :=
  walk_of_agree h.agree hr' q

/-- Below a reachable table everything stays. -/
theorem below (hr' : R.Root r') {v : Frame} (hv : m.tableAt r' q = some v) (s : List Index) :
    Radix.walk child m'.mem (4 - q.length) v s = Radix.walk child m.mem (4 - q.length) v s := by
  have hwhole := (h.walk hr' (q ++ s)).1
  have hv' : m'.tableAt r' q = some v := (h.walk hr' q).2.trans hv
  rw [Machine.walk, Machine.walk, walk_append s hv, walk_append s hv'] at hwhole
  have hhead : Radix.walk child m'.mem 4 r' q = Radix.walk child m.mem 4 r' q := (h.walk hr' q).1
  rw [hhead] at hwhole
  exact List.append_cancel_left hwhole

theorem reaches (t : Frame) : R.Reaches m' t ↔ R.Reaches m t := by
  constructor
  · rintro ⟨r', q, hr', hq⟩
    exact ⟨r', q, hr', (h.walk hr' q).2.symm.trans hq⟩
  · rintro ⟨r', q, hr', hq⟩
    exact ⟨r', q, hr', (h.walk hr' q).2.trans hq⟩

theorem trans {m'' : Machine} (h' : Outside R m' m'') : Outside R m m'' :=
  ⟨h'.kernel.trans h.kernel, h'.heap.trans h.heap, fun t i ht =>
    (h'.agree t i ((h.reaches t).mpr ht)).trans (h.agree t i ht)⟩

theorem owned (hO : Owned R m r p t) : Owned R m' r p t := hO.same (h.walk hO.root p)

/-- The invariant after a step outside of the tables: what is left to show
concerns the frame allocator and the batch. -/
theorem space (hS : Space R m) (hbacked : ∀ t, R.Reaches m t → Backed m' t)
    (hpending : ∀ t ∈ m'.deferred, Backed m' t ∧ ¬ R.Reaches m t)
    (hframes : m'.pmm.totalFrames ≤ 2 ^ 40)
    (hheapFrames : ∀ f, f < m'.pmm.totalFrames → testFrame m'.pmm f = false →
      heapContains m' (f * 4096) = false) : Space R m' := by
  refine
    { kernel := h.kernel.trans hS.kernel
      separated := hS.separated.of_agree h.agree
      backed := fun t ht => hbacked t ((h.reaches t).mp ht)
      top := ?_
      pending := fun t ht => ⟨(hpending t ht).1, fun hr => (hpending t ht).2 ((h.reaches t).mp hr)⟩
      frames := hframes
      heapFrames := hheapFrames
      heap := h.heap.trans hS.heap }
  intro r' hr' i hscope
  rw [h.agree r' i ⟨r', [], .inr hr', rfl⟩]
  exact hS.top r' hr' i hscope

end Outside

/-- Writing a frame that no root reaches. -/
theorem Outside.setFrame {f : Frame} (hf : ¬ R.Reaches m f) (words : Index → BitVec 64) :
    Outside R m (m.setFrame f words) := by
  refine ⟨rfl, rfl, ?_⟩
  intro t i ht
  have hne : t ≠ f := fun h => hf (h ▸ ht)
  exact if_neg hne

theorem Space.setFrame (hS : Space R m) {f : Frame} (hf : ¬ R.Reaches m f)
    (words : Index → BitVec 64) : Space R (m.setFrame f words) :=
  (Outside.setFrame hf words).space hS (fun t ht => { hS.backed t ht with })
    (fun t ht => ⟨{ (hS.pending t ht).1 with }, (hS.pending t ht).2⟩)
    hS.frames hS.heapFrames

/-! ## New tables -/

/-- The machine after `AllocTable` returned `u`. -/
def Machine.withTable (m : Machine) (u : Frame) (pmm : Pmm.State) : Machine :=
  { m.setFrame u (fun _ => 0#64) with
    pmm := pmm
    trace := { m.trace with tables := u :: m.trace.tables } }

/-- The machine after `AllocTable` returned null. -/
def Machine.tableFailed (m : Machine) : Machine :=
  { m with trace := { m.trace with tableFailure := true } }

theorem allocTableFrame_spec (s : Pmm.State) : AllocSpec s 1 (allocTableFrame s) := by
  unfold allocTableFrame
  rcases allocFramesAbove_spec s 1 kernelHighAllocMin with hfail | ⟨start, hphys, hgrant⟩
  · rw [hfail]
    exact allocFrame_spec s
  have hne : (allocFramesAbove s 1 kernelHighAllocMin).1 ≠ 0 := by
    rw [hphys]
    exact Nat.mul_ne_zero (Nat.pos_iff_ne_zero.mp hgrant.pos) (by decide)
  dsimp only
  rw [if_neg hne]
  exact .inr ⟨start, hphys, hgrant⟩

/-- The frame allocator after one more table was taken; `none` when it has no
frame left. -/
def takeTable (s : Pmm.State) : Option Pmm.State :=
  if (allocTableFrame s).1 = 0 then none else some (allocTableFrame s).2

/-- Whether the frame allocator can supply `n` tables, one after the other. -/
def supplies : Pmm.State → Nat → Bool
  | _, 0 => true
  | s, n + 1 =>
    match takeTable s with
    | none => false
    | some s' => supplies s' n

variable {s : Pmm.State}

theorem supplies_succ {s' : Pmm.State} (h : takeTable s = some s') (n : Nat) :
    supplies s (n + 1) = supplies s' n := by
  rw [supplies, h]

theorem supplies_none (h : takeTable s = none) : supplies s 1 = false := by
  rw [supplies, h]

theorem supplies_of_succ {n : Nat} (h : supplies s (n + 1)) : supplies s n := by
  induction n generalizing s with
  | zero => rfl
  | succ n ih =>
    rw [supplies] at h ⊢
    cases htake : takeTable s with
    | none => rw [htake] at h; exact h
    | some s' => rw [htake] at h; exact ih h

theorem supplies_le {n k : Nat} (h : supplies s n) (hk : k ≤ n) : supplies s k := by
  induction hk with
  | refl => exact h
  | step _ ih => exact ih (supplies_of_succ h)

/-- The frame `u` was taken for a table. -/
structure TableTaken (s : Pmm.State) (u : Frame) (s' : Pmm.State) : Prop
    extends Granted s u.toNat 1 s' where
  nonzero : u ≠ 0
  taken : takeTable s = some s'

variable {u : Frame}

/-- Frames come from an initialised allocator only. -/
theorem TableTaken.init {s' : Pmm.State} (h : TableTaken s u s') : s.initialized := by
  cases hinit : s.initialized with
  | true => rfl
  | false =>
    have htaken := h.taken
    simp [takeTable, allocTableFrame, allocFramesAbove, allocFrame, hinit] at htaken

/-- `AllocTable` returns a frame that was free, zeroed, or it returns null and
changes nothing. -/
theorem allocTable_spec (hframes : m.pmm.totalFrames ≤ 2 ^ 40) : Cmd.Ends allocTable m
      (fun u m' => ∃ pmm, TableTaken m.pmm u pmm ∧ m' = m.withTable u pmm)
      (fun m' => m' = m.tableFailed ∧ takeTable m.pmm = none) := by
  unfold Cmd.Ends allocTable
  rcases hspec : allocTableFrame m.pmm with ⟨phys, pmm⟩
  have halloc := allocTableFrame_spec m.pmm
  rw [hspec] at halloc
  rcases halloc with hfail | ⟨start, hphys, hgrant⟩
  · obtain ⟨rfl, rfl⟩ := Prod.mk.inj hfail
    refine ⟨rfl, ?_⟩
    unfold takeTable
    rw [hspec]
    rfl
  · dsimp only at hphys hgrant ⊢
    have hpos := hgrant.pos
    have hbound := hgrant.bound
    have hne : phys ≠ 0 := by
      rw [hphys]
      exact Nat.mul_ne_zero (by omega) (by decide)
    have hframe : (frameOfPhys phys).toNat = start := by
      have hdiv : phys / pageSize = start := by
        rw [hphys]
        exact Nat.mul_div_cancel start (by decide)
      simp only [frameOfPhys, BitVec.toNat_ofNat]
      omega
    rw [if_neg hne]
    refine ⟨pmm, ⟨by rw [hframe]; exact hgrant, ?_, ?_⟩, rfl⟩
    · intro hzero
      rw [hzero] at hframe
      have : (0 : Frame).toNat = 0 := rfl
      omega
    · unfold takeTable
      rw [hspec, if_neg hne]

section

variable {u : Frame} {pmm : Pmm.State} (hS : Space R m) (hgrant : TableTaken m.pmm u pmm)

include hS hgrant

theorem newTable_unreached : ¬ R.Reaches m u := by
  intro hreach
  have hused := (hS.backed u hreach).used
  rw [hgrant.free u.toNat (by omega) (by omega)] at hused
  cases hused

theorem newTable_not_deferred : u ∉ m.deferred := by
  intro hmem
  have hused := (hS.pending u hmem).1.used
  rw [hgrant.free u.toNat (by omega) (by omega)] at hused
  cases hused

theorem Outside.withTable : Outside R m (m.withTable u pmm) := by
  refine ⟨rfl, rfl, ?_⟩
  intro t i ht
  have hne : t ≠ u := fun h => newTable_unreached hS hgrant (h ▸ ht)
  exact if_neg hne

omit hS in
private theorem backed_withTable {t : Frame} (hb : Backed m t) : Backed (m.withTable u pmm) t := by
  refine ⟨hb.nonzero, ?_, hb.notHeap⟩
  show testFrame pmm t.toNat
  rw [hgrant.test, hb.used, Bool.or_true]

theorem Space.withTable : Space R (m.withTable u pmm) := by
  have hshape : pmm.totalFrames = m.pmm.totalFrames := hgrant.shape.total
  refine (Outside.withTable hS hgrant).space hS ?_ ?_ ?_ ?_
  · intro t ht
    exact backed_withTable hgrant (hS.backed t ht)
  · intro t ht
    exact ⟨backed_withTable hgrant (hS.pending t ht).1, (hS.pending t ht).2⟩
  · show pmm.totalFrames ≤ 2 ^ 40
    rw [hshape]
    exact hS.frames
  · show ∀ f, f < pmm.totalFrames → testFrame pmm f = false → heapContains m (f * 4096) = false
    intro f hf hfree
    rw [hgrant.test, Bool.or_eq_false_iff] at hfree
    exact hS.heapFrames f (by omega) hfree.2

theorem newTable_backed : Backed (m.withTable u pmm) u := by
  refine ⟨hgrant.nonzero, ?_, ?_⟩
  · show testFrame pmm u.toNat
    rw [hgrant.test]
    simp
  · have hbound := hgrant.bound
    rw [addrOf_toNat]
    exact hS.heapFrames u.toNat (by omega) (hgrant.free _ (by omega) (by omega))

end

/-! ## Replacing an entry of an owned table -/

theorem setEntry_mem (m : Machine) (t : Frame) (i : Index) (e : Entry) :
    (m.setEntry ⟨t, i⟩ e).mem t i = e :=
  if_pos ⟨rfl, rfl⟩

private theorem agree_setEntry (e : Entry) :
    Radix.AgreeExcept child m.mem 4 R.Root (m.setEntry ⟨t, i⟩ e).mem t i := by
  intro t' i' _ hne
  exact if_neg hne

section

variable (hO : Owned R m r p t)

include hO

theorem Owned.tableAt_slot (s : List Index) :
    m.tableAt r (p ++ i :: s) = m.tableBelow (4 - p.length) (m.mem t i) s :=
  Radix.tableAt_slot hO.reached i s

theorem Owned.walk_slot (s : List Index) :
    m.walk r (p ++ i :: s) = m.walk r p ++ m.mem t i :: m.below (4 - p.length) (m.mem t i) s :=
  Radix.walk_slot hO.reached i s

theorem Owned.tableAt_child
    (h : child (4 - p.length) (m.mem t i) = some u) : m.tableAt r (p ++ [i]) = some u :=
  (Machine.tableAt_concat hO.reached).trans h

theorem Owned.child_eq
    (h : m.tableAt r (p ++ [i]) = some u) : child (4 - p.length) (m.mem t i) = some u :=
  (Machine.tableAt_concat hO.reached).symm.trans h

/-- What lies below an owned table is another table. -/
theorem Owned.ne_below (hS : Space R m) {s : List Index} {v : Frame}
    (h : m.tableAt r (p ++ i :: s) = some v) : v ≠ t := by
  rintro rfl
  have hlen := congrArg List.length ((hO.exclusive hS).unique r _ hO.root h).2
  simp only [List.length_append, List.length_cons] at hlen
  omega

end

/-- A list of indices through the slot `i`. -/
theorem through_slot (h : p ++ [i] <+: q) : ∃ s, q = p ++ i :: s := by
  obtain ⟨s, rfl⟩ := h
  exact ⟨s, List.append_assoc p [i] s⟩

section

variable (hS : Space R m) (hO : Owned R m r p t)

include hS hO

/-- Walks that do not pass the entry are the same. -/
theorem Owned.walk_elsewhere (e : Entry) (hr' : R.Root r')
    (hq : ¬ (r' = r ∧ p ++ [i] <+: q)) : (m.setEntry ⟨t, i⟩ e).walk r' q = m.walk r' q ∧
      (m.setEntry ⟨t, i⟩ e).tableAt r' q = m.tableAt r' q :=
  Radix.walk_elsewhere (hO.exclusive hS) (agree_setEntry e) hr' hq

variable {e : Entry}

/-- A walk that passes the entry reads the new one and goes on below it. -/
theorem Owned.walk_through
    (hbelow : ∀ s v, m.tableBelow (4 - p.length) e s = some v → v ≠ t) (s : List Index) :
    (m.setEntry ⟨t, i⟩ e).walk r (p ++ i :: s) = m.walk r p ++ e :: m.below (4 - p.length) e s ∧
      (m.setEntry ⟨t, i⟩ e).tableAt r (p ++ i :: s) = m.tableBelow (4 - p.length) e s := by
  have h := Radix.walk_through (hO.exclusive hS) (agree_setEntry e) (i := i) (by
    intro s v hv j
    rw [setEntry_mem] at hv
    exact if_neg (fun hsame => hbelow s v hv hsame.1)) s
  rw [setEntry_mem] at h
  exact h

/-- What is reached afterwards was reached before or lies below the new entry. -/
theorem Owned.origin (hbelow : ∀ s v, m.tableBelow (4 - p.length) e s = some v → v ≠ t) {v : Frame}
    (hv : R.Reaches (m.setEntry ⟨t, i⟩ e) v) :
    R.Reaches m v ∨ ∃ s, m.tableBelow (4 - p.length) e s = some v := by
  obtain ⟨r', q, hr', hq⟩ := hv
  by_cases hthrough : r' = r ∧ p ++ [i] <+: q
  · obtain ⟨rfl, hq'⟩ := hthrough
    obtain ⟨s, rfl⟩ := through_slot hq'
    exact .inr ⟨s, (hO.walk_through hS hbelow s).2.symm.trans hq⟩
  · exact .inl ⟨r', q, hr', (hO.walk_elsewhere hS e hr' hthrough).2.symm.trans hq⟩

omit hS hO in
/-- Below the new entry one reaches what was reached there before, or a table
that nothing reached. -/
def Reuses (R : Family) (m : Machine) (r : Frame) (p : List Index) (i : Index) (e : Entry) : Prop :=
  ∀ s v, m.tableBelow (4 - p.length) e s = some v → m.tableAt r (p ++ i :: s) = some v ∨
    s = [] ∧ ¬ R.Reaches m v ∧ Backed m v ∧ v ∉ m.deferred

theorem Reuses.ne (h : Reuses R m r p i e) (s : List Index) (v : Frame)
    (hv : m.tableBelow (4 - p.length) e s = some v) : v ≠ t := by
  rcases h s v hv with hold | ⟨-, hnew, -⟩
  · exact hO.ne_below hS hold
  · rintro rfl
    exact hnew hO.reaches

/-- **The invariant survives the new entry** when what is reached below it was
reached there before, or is a table that nothing reached, and when no path
becomes marked that was not. -/
theorem Space.setEntry (hreach : Reuses R m r p i e)
    (hmark : ∀ s v, m.tableAt r (p ++ i :: s) = some v → m.tableBelow (4 - p.length) e s = some v →
      (∀ x ∈ e :: m.below (4 - p.length) e s, has x privateTable) →
      ∀ x ∈ m.walk r (p ++ i :: s), has x privateTable)
    (htop : p = [] → has e present → has e largePage = false) : Space R (m.setEntry ⟨t, i⟩ e) ∧
      (∀ v, R.Reaches (m.setEntry ⟨t, i⟩ e) v →
        R.Reaches m v ∨ m.tableBelow (4 - p.length) e [] = some v) ∧
      ∀ s, (m.setEntry ⟨t, i⟩ e).walk r (p ++ i :: s) =
          m.walk r p ++ e :: m.below (4 - p.length) e s ∧
        (m.setEntry ⟨t, i⟩ e).tableAt r (p ++ i :: s) = m.tableBelow (4 - p.length) e s := by
  have hbelow := hreach.ne hS hO
  have hwalk := fun s => (hO.walk_through hS (i := i) hbelow s)
  have horigin : ∀ v, R.Reaches (m.setEntry ⟨t, i⟩ e) v → R.Reaches m v ∨
      m.tableBelow (4 - p.length) e [] = some v ∧ Backed m v ∧ v ∉ m.deferred := by
    intro v hv
    rcases hO.origin hS hbelow hv with hold | ⟨s, hs⟩
    · exact .inl hold
    · rcases hreach s v hs with hold | ⟨rfl, -, hfresh⟩
      · exact .inl ⟨r, _, hO.root, hold⟩
      · exact .inr ⟨hs, hfresh⟩
  refine ⟨{ hS with separated := ?_, backed := ?_, top := ?_, pending := ?_ },
    fun v hv => (horigin v hv).imp_right And.left, hwalk⟩
  · refine hS.separated.update (hO.exclusive hS) (agree_setEntry e) ?_ ?_
    · intro s v hv
      rcases hreach s v ((hwalk s).2.symm.trans hv) with hold | ⟨hs, hnew, -⟩
      · exact .inl hold
      · exact .inr ⟨hs, hnew⟩
    · intro s v hold hnew hm
      refine hmark s v hold ((hwalk s).2.symm.trans hnew) ?_
      intro x hx
      have hmem : x ∈ (m.setEntry ⟨t, i⟩ e).walk r (p ++ i :: s) := by
        rw [(hwalk s).1]
        exact List.mem_append_right _ hx
      exact hm x hmem
  · intro v hv
    rcases horigin v hv with hold | hfresh
    · exact { hS.backed v hold with }
    · exact { hfresh.2.1 with }
  · intro r' hr' i' hscope
    show has (if r' = t ∧ i' = i then e else m.mem r' i') present →
      has (if r' = t ∧ i' = i then e else m.mem r' i') largePage = false
    by_cases hsame : r' = t ∧ i' = i
    · rw [if_pos hsame]
      apply htop
      -- the table is the root of a process, which is reached along no other path
      obtain ⟨rfl, -⟩ := hsame
      exact ((hO.exclusive hS).unique r' [] (.inr hr') rfl).2.symm
    · rw [if_neg hsame]
      exact hS.top r' hr' i' hscope
  · intro v hv
    obtain ⟨hb, hnot⟩ := hS.pending v hv
    refine ⟨{ hb with }, fun hreached => ?_⟩
    rcases horigin v hreached with hold | hfresh
    · exact hnot hold
    · exact hfresh.2.2 hv

/-! The three kinds of new entries: other flags, a leaf or nothing, and a new
table. -/

/-- The entry keeps its child and gets no private-table bit. -/
theorem Space.setEntry_flags (hchild : child (4 - p.length) e = child (4 - p.length) (m.mem t i))
    (hpriv : has e privateTable → has (m.mem t i) privateTable)
    (htop : p = [] → has e present → has e largePage = false) : Space R (m.setEntry ⟨t, i⟩ e) ∧
      (∀ v, R.Reaches (m.setEntry ⟨t, i⟩ e) v → R.Reaches m v) ∧
      ∀ s, (m.setEntry ⟨t, i⟩ e).walk r (p ++ i :: s) =
          m.walk r p ++ e :: m.below (4 - p.length) (m.mem t i) s ∧
        (m.setEntry ⟨t, i⟩ e).tableAt r (p ++ i :: s) = m.tableAt r (p ++ i :: s) := by
  have hbelow := fun s => Machine.below_congr (m := m) hchild s
  have htable : ∀ s, m.tableBelow (4 - p.length) e s = m.tableAt r (p ++ i :: s) := by
    intro s
    rw [hO.tableAt_slot]
    unfold Machine.tableBelow Radix.tableBelow
    rw [hchild]
  obtain ⟨hspace, hreached, hwalk⟩ := hS.setEntry hO (i := i) (e := e)
    (fun s v hv => .inl ((htable s).symm.trans hv)) (by
      intro s v _ _ hm x hx
      rw [hO.walk_slot, List.mem_append] at hx
      rcases hx with hx | hx
      · exact hO.marked x hx
      · rcases List.mem_cons.mp hx with rfl | hx
        · exact hpriv (hm e List.mem_cons_self)
        · exact hm x (by rw [hbelow]; exact List.mem_cons_of_mem _ hx)) htop
  refine ⟨hspace, fun v hv => (hreached v hv).elim id fun hs => ?_, fun s => ?_⟩
  · exact ⟨r, _, hO.root, (htable []).symm.trans hs⟩
  · have h := hwalk s
    rw [hbelow, htable] at h
    exact h

/-- The entry names no table: a leaf, or nothing at all. -/
theorem Space.setEntry_leaf (hchild : child (4 - p.length) e = none)
    (htop : p = [] → has e present → has e largePage = false) : Space R (m.setEntry ⟨t, i⟩ e) ∧
      (∀ v, R.Reaches (m.setEntry ⟨t, i⟩ e) v → R.Reaches m v) ∧
      ∀ s, (m.setEntry ⟨t, i⟩ e).walk r (p ++ i :: s) = m.walk r p ++ [e] ∧
        (m.setEntry ⟨t, i⟩ e).tableAt r (p ++ i :: s) = none := by
  have hnone : ∀ s v, m.tableBelow (4 - p.length) e s ≠ some v := by
    intro s v h
    cases (Machine.tableBelow_none hchild s).symm.trans h
  obtain ⟨hspace, hreached, hwalk⟩ := hS.setEntry hO (i := i) (e := e)
    (fun s v hv => absurd hv (hnone s v)) (fun s v _ hv => absurd hv (hnone s v)) htop
  refine ⟨hspace, fun v hv => (hreached v hv).resolve_right (hnone [] v), fun s => ?_⟩
  have h := hwalk s
  rw [Machine.below_none hchild, Machine.tableBelow_none hchild s] at h
  exact h

end

/-- A table that nothing reaches yet. -/
structure Spare (R : Family) (m : Machine) (u : Frame) : Prop where
  space : Space R m
  backed : Backed m u
  unreached : ¬ R.Reaches m u
  notDeferred : u ∉ m.deferred

/-- Below the words of `u` one finds what one finds below the entry `e` of
level `n`, or nothing; and nothing there is marked. -/
def Covers (m : Machine) (n : Nat) (e : Entry) (u : Frame) : Prop :=
  ∀ j, child (n - 1) (m.mem u j) = none ∨
    has (m.mem u j) privateTable = false ∧
      ∃ t₀, child n e = some t₀ ∧ child (n - 1) (m.mem u j) = child (n - 1) (m.mem t₀ j)

/-- The entry is made to name a spare table. -/
theorem Spare.setEntry {e : Entry} (hu : Spare R m u) (hO : Owned R m r p t)
    (hchild : child (4 - p.length) e = some u) (hcovers : Covers m (4 - p.length) (m.mem t i) u)
    (htop : p = [] → has e present → has e largePage = false) : Space R (m.setEntry ⟨t, i⟩ e) ∧
      (∀ v, R.Reaches (m.setEntry ⟨t, i⟩ e) v → R.Reaches m v ∨ v = u) ∧
      ∀ s, (m.setEntry ⟨t, i⟩ e).walk r (p ++ i :: s) =
          m.walk r p ++ e :: Radix.walk child m.mem (4 - p.length - 1) u s ∧
        (m.setEntry ⟨t, i⟩ e).tableAt r (p ++ i :: s) =
          Radix.tableAt child m.mem (4 - p.length - 1) u s := by
  have hS := hu.space
  have htable : ∀ s, m.tableBelow (4 - p.length) e s =
      Radix.tableAt child m.mem (4 - p.length - 1) u s := by
    intro s
    unfold Machine.tableBelow Radix.tableBelow
    rw [hchild]
    rfl
  -- below an index of the new table lies what lay there before
  have hdeep : ∀ j s v, m.tableBelow (4 - p.length) e (j :: s) = some v →
      has (m.mem u j) privateTable = false ∧ m.tableAt r (p ++ i :: j :: s) = some v := by
    intro j s v hv
    rw [htable, tableAt_cons] at hv
    rcases hcovers j with hnone | ⟨hpriv, t₀, ht0, hsame⟩
    · rw [hnone] at hv
      cases hv
    refine ⟨hpriv, ?_⟩
    rw [hO.tableAt_slot]
    unfold Machine.tableBelow Radix.tableBelow
    rw [ht0, Option.bind_some, tableAt_cons, ← hsame]
    exact hv
  have hnew : ∀ {v}, m.tableBelow (4 - p.length) e [] = some v → u = v := fun hv =>
    Option.some.inj ((htable []).symm.trans hv)
  have hreach : Reuses R m r p i e := by
    intro s v hv
    cases s with
    | nil =>
      obtain rfl := hnew hv
      exact .inr ⟨rfl, hu.unreached, hu.backed, hu.notDeferred⟩
    | cons j s => exact .inl (hdeep j s v hv).2
  obtain ⟨hspace, hreached, hwalk⟩ := hS.setEntry hO hreach (by
    intro s v hold hv hm
    cases s with
    | nil =>
      obtain rfl := hnew hv
      exact absurd ⟨r, _, hO.root, hold⟩ hu.unreached
    | cons j s =>
      have hbad := hm (m.mem u j) (by
        unfold Machine.below below
        rw [hchild]
        simp [walk_cons])
      rw [(hdeep j s v hv).1] at hbad
      cases hbad) htop
  refine ⟨hspace, fun v hv => (hreached v hv).imp_right fun hs => (hnew hs).symm, fun s => ?_⟩
  have h := hwalk s
  rw [htable] at h
  unfold Machine.below below at h
  rw [hchild] at h
  exact h

/-- Ownership of the table below a private entry. -/
theorem Owned.below {e : Entry} (hO : Owned R m r p t)
    (hscope : R.InScope (p ++ [i])) {m' : Machine}
    (hwalk : m'.walk r (p ++ [i]) = m.walk r p ++ [e])
    (htable : m'.tableAt r (p ++ [i]) = some u) (hpriv : has e privateTable) :
    Owned R m' r (p ++ [i]) u := by
  refine ⟨hO.proc, hscope, htable, ?_⟩
  intro x hx
  rw [hwalk, List.mem_append, List.mem_singleton] at hx
  rcases hx with hx | rfl
  · exact hO.marked x hx
  · exact hpriv

end InstantOS.Vmm

import InstantOS.Memory.VmmLedger

/-!
# Teardown of an address space

`FreeAddressSpace` walks the low half of a root and frees the tables it takes
for the address space's own.  It never writes a table, so the whole walk is
about the memory before the call; `Torn` compares the machine on the way with
that memory.  For an address space with a ledger the tables that are freed are
exactly the owned ones.
-/

namespace InstantOS.Vmm

open List Pmm

variable {R : Family} {m m' n : Machine} {r t u v : Frame} {p q : List Index} {i j : Index}

/-! ## Frames given back -/

theorem forFrames_releases {body : Pmm.State → Nat → Pmm.State}
    (hbody : ∀ s f, Releases s (body s f)) (lo hi : Nat) (s : Pmm.State) :
    Releases s (forFrames lo hi body s) := by
  unfold forFrames
  generalize range' lo (hi - lo) = l
  induction l generalizing s with
  | nil => exact .refl s
  | cons f l ih => exact (hbody s f).trans (ih (body s f))

theorem freeFrames_releases (s : Pmm.State) (phys count : Nat) :
    Releases s (freeFrames s phys count) := by
  unfold freeFrames
  split
  · exact .refl s
  · exact forFrames_releases (fun s f => Dropped.releases (dropFrame_spec s f)) _ _ s

/-- The machine `n` is `m` after the tables `F` and some leaf frames were
freed. -/
structure Torn (m : Machine) (F : List Frame) (n : Machine) : Prop where
  mem : n.mem = m.mem
  kernel : n.kernelPml4 = m.kernelPml4
  arenas : n.arenas = m.arenas
  tables : n.trace.tables = m.trace.tables.filter (fun f => decide (f ∉ F))
  releases : Releases m.pmm n.pmm
  cleared : ∀ f ∈ F, testFrame n.pmm f.toNat = false

theorem Torn.refl (m : Machine) : Torn m [] m :=
  ⟨rfl, rfl, rfl, by simp, .refl _, fun _ h => by cases h⟩

variable {F : List Frame}

/-- Frames that were cleared stay cleared. -/
private theorem Torn.cleared_of (h : Torn m F n) {s : Pmm.State} (hs : Releases n.pmm s) :
    ∀ f ∈ F, testFrame s f.toNat = false := by
  intro f hf
  cases htest : testFrame s f.toNat with
  | false => rfl
  | true =>
    rw [← h.cleared f hf]
    exact (hs.test _ htest).symm

theorem Torn.release (h : Torn m F n) (addr : BitVec 64) (count : Nat) :
    Torn m F (n.release addr count) := by
  have hrel : Releases n.pmm (n.release addr count).pmm := by
    unfold Machine.release
    split
    · exact freeFrame_releases _ _
    · exact freeFrames_releases _ _ _
  exact { h with releases := h.releases.trans hrel, cleared := h.cleared_of hrel }

/-- Freeing the frames of a leaf frees no table. -/
theorem Torn.leaf (h : Torn m F n) (e : Entry) (level : Nat) (va : BitVec 64) :
    Torn m F (freeMappedFrames n e level va) := by
  unfold freeMappedFrames
  split
  · exact h
  cases leafExtent e level with
  | none => exact h
  | some x =>
    dsimp only
    split
    · exact h
    · exact h.release x.1 x.2

/-- A table frame that nothing else refers to. -/
structure Disposable (m : Machine) (t : Frame) : Prop extends Freeable m t where
  bound : t.toNat < m.pmm.totalFrames
  single : m.pmm.refcount t.toNat ≤ 1

theorem Torn.table (h : Torn m F n) (hinit : m.pmm.initialized)
    (hnodup : m.trace.tables.Nodup) (ht : Disposable m t) : Torn m (t :: F) (freeTable n t) := by
  have hfree : Freeable n t := ht.toFreeable.congr h.mem h.kernel h.arenas
  have hspec := freeTable_spec hfree.notHeap
  have hn : n.trace.tables.Nodup := by
    rw [h.tables]
    exact hnodup.filter _
  obtain ⟨htables, -, hrel, hclear⟩ := foldl_freeTable_books [t] n
    (fun u hu => by rw [mem_singleton.mp hu]; exact hfree) hn
  rw [foldl_cons, foldl_nil] at htables hrel hclear
  refine ⟨hspec.mem.trans h.mem, hspec.kernel.trans h.kernel, hspec.arenas.trans h.arenas, ?_,
    h.releases.trans hrel, ?_⟩
  · rw [htables, h.tables, filter_filter]
    apply filter_congr
    intro f _
    rw [Bool.eq_iff_iff]
    simp only [Bool.and_eq_true, decide_eq_true_eq, mem_cons, not_mem_nil, or_false, not_or]
  · intro f hf
    rcases mem_cons.mp hf with rfl | hf
    · apply hclear (h.releases.shape.init.trans hinit) f (mem_singleton_self f)
      · rw [h.releases.shape.total]
        exact ht.bound
      · exact Nat.le_trans (h.releases.count _) ht.single
    · exact h.cleared_of hrel f hf

/-! ## Entries and the kernel's entries -/

/-- A table is owned somewhere behind the slot `i` of the table at `p`. -/
def Behind (R : Family) (m : Machine) (r : Frame) (p : List Index) (i : Index) (f : Frame) :
    Prop :=
  ∃ s, Owned R m r (p ++ i :: s) f

/-- The table right behind the slot is owned as well. -/
theorem Behind.next (h : Behind R m r p i v) : ∃ u, Owned R m r (p ++ [i]) u := by
  obtain ⟨s, hs⟩ := h
  cases s with
  | nil => exact ⟨v, hs⟩
  | cons j s =>
    rw [show p ++ i :: j :: s = (p ++ [i]) ++ j :: s by simp] at hs
    obtain ⟨u, hu, -⟩ := hs.parent
    exact ⟨u, hu⟩

/-- What lies behind a slot is the table right there and what lies behind its
slots. -/
theorem behind_iff (hU : Owned R m r (p ++ [i]) u) :
    Behind R m r p i v ↔ v = u ∨ ∃ j, Behind R m r (p ++ [i]) j v := by
  constructor
  · rintro ⟨s, hs⟩
    cases s with
    | nil => exact .inl (hs.unique hU)
    | cons j s =>
      refine .inr ⟨j, s, ?_⟩
      rw [append_assoc]
      exact hs
  · rintro (rfl | ⟨j, s, hs⟩)
    · exact ⟨[], hU⟩
    · refine ⟨j :: s, ?_⟩
      rw [append_assoc] at hs
      exact hs

theorem Owned.not_behind_slot (hO : Owned R m r p t)
    (hnone : child (4 - p.length) (m.mem t i) = none) : ¬ Behind R m r p i v := by
  rintro ⟨s, hs⟩
  exact hO.not_behind (.inr hnone) hs

/-- The kernel's entry at the same place; an absent one where the kernel has no
table. -/
def kernelEntryAt (R : Family) (m : Machine) (p : List Index) (i : Index) : Entry :=
  match m.tableAt R.kernel p with
  | none => 0#64
  | some t₀ => m.mem t₀ i

theorem tableAt_kernel_concat :
    m.tableAt R.kernel (p ++ [i]) = child (4 - p.length) (kernelEntryAt R m p i) := by
  unfold kernelEntryAt
  cases h : m.tableAt R.kernel p with
  | none =>
    rw [Machine.tableAt, Radix.tableAt_append, show Radix.tableAt child m.mem 4 R.kernel p = none
      from h]
    exact (child_zero _).symm
  | some t₀ => exact Machine.tableAt_concat h

section

variable (hS : Space R m) (hkernel : R.kernel ≠ r) (hO : Owned R m r p t)

include hS hkernel hO

/-- Behind an entry that is the kernel's, nothing is owned. -/
theorem not_behind_of_baseline
    (heq : m.mem t i &&& ~~~ privateTable = kernelEntryAt R m p i &&& ~~~ privateTable) :
    ¬ Behind R m r p i v := by
  intro hbehind
  obtain ⟨u, hU⟩ := hbehind.next
  have hchild := hO.child_eq hU.reached
  have hk : m.tableAt R.kernel (p ++ [i]) = some u := by
    rw [tableAt_kernel_concat, ← child_unmark, ← heq, child_unmark]
    exact hchild
  exact hkernel ((hU.exclusive hS).unique R.kernel _ (.inl rfl) hk).1

omit hS hkernel in
/-- A table entry that is not the kernel's names an own table. -/
theorem owned_of_differs (hI : Inherits R m r) (hscope : R.InScope (p ++ [i]))
    (hchild : child (4 - p.length) (m.mem t i) = some u)
    (hne : m.mem t i &&& ~~~ privateTable ≠ kernelEntryAt R m p i &&& ~~~ privateTable) :
    Owned R m r (p ++ [i]) u := by
  have hpriv : has (m.mem t i) privateTable := by
    cases hp : has (m.mem t i) privateTable with
    | true => rfl
    | false =>
      obtain ⟨t₀, ht0, heq⟩ := hI.shared p t i hO hscope (by rw [hchild]; simp) hp
      refine absurd ?_ hne
      unfold kernelEntryAt
      rw [ht0]
      exact heq
  exact hO.below hscope (by rw [hO.walk_slot, Machine.below_nil]) (hO.tableAt_child hchild) hpriv

end

/-! ## The walk -/

section

variable {base : List Frame} {s0 : Pmm.State} (hL : Ledger R r base s0 m) (hkernel : R.kernel ≠ r)

include hL hkernel

theorem Ledger.disposable (hO : Owned R m r p t) : Disposable m t := by
  obtain ⟨new, hB⟩ := hL.books
  have hb := hO.backed hL.space
  obtain ⟨hbound, hcount⟩ := hB.single t ((hB.held t).mpr (.inl ⟨p, hO⟩))
  refine ⟨⟨hb.nonzero, hb.notHeap, frameIsKernelTable_eq_false hL.space.kernel ?_⟩, hbound,
    by omega⟩
  intro q hq
  exact hkernel ((hO.exclusive hL.space).unique R.kernel q (.inl rfl) hq).1

/-- An own table is freed. -/
theorem Ledger.table (hO : Owned R m r p t) (h : Torn m F n) : Torn m (t :: F) (freeTable n t) := by
  obtain ⟨new, hB⟩ := hL.books
  refine h.table hB.init ?_ (hL.disposable hkernel hO)
  rw [hB.tables]
  exact hB.nodup

/-- The result of a part of the walk: the tables `S` were freed. -/
def Sweeps (m : Machine) (F : List Frame) (S : Frame → Prop) (n : Machine) : Prop :=
  ∃ F', Torn m F' n ∧ ∀ f, f ∈ F' ↔ f ∈ F ∨ S f

omit hL hkernel in
theorem Torn.sweeps (h : Torn m F n) {S : Frame → Prop} (hS : ∀ f, ¬ S f) : Sweeps m F S n :=
  ⟨F, h, fun f => (or_iff_left (hS f)).symm⟩

omit hL hkernel in
/-- A loop over slots, one after the other. -/
theorem sweep_slots {body : Machine → Index → Machine} {S : Index → Frame → Prop} (l : List Index)
    (hbody : ∀ i ∈ l, ∀ F n, Torn m F n → Sweeps m F (S i) (body n i)) :
    ∀ F n, Torn m F n → Sweeps m F (fun f => ∃ i ∈ l, S i f) (l.foldl body n) := by
  induction l with
  | nil =>
    intro F n h
    exact h.sweeps (fun f hf => by obtain ⟨i, hi, -⟩ := hf; cases hi)
  | cons i l ih =>
    intro F n h
    obtain ⟨F1, h1, hF1⟩ := hbody i mem_cons_self F n h
    obtain ⟨F2, h2, hF2⟩ := ih (fun j hj => hbody j (mem_cons_of_mem _ hj)) F1 _ h1
    refine ⟨F2, h2, ?_⟩
    intro f
    rw [hF2, hF1, or_assoc]
    simp only [exists_mem_cons_iff]

/-- The table behind a slot goes after everything behind its own slots. -/
theorem Ledger.sweep_table (hU : Owned R m r (p ++ [i]) u)
    (h : Sweeps m F (fun f => ∃ j, Behind R m r (p ++ [i]) j f) n) :
    Sweeps m F (Behind R m r p i) (freeTable n u) := by
  obtain ⟨F1, h1, hF1⟩ := h
  refine ⟨u :: F1, hL.table hkernel hU h1, ?_⟩
  intro f
  rw [mem_cons, hF1, behind_iff hU]
  tauto

omit hL hkernel in
/-- The entry that `freePrivateTable` reads as the kernel's. -/
theorem baseline_eq (hS : Space R m) (hmem : n.mem = m.mem) {kernelTable : Frame}
    (hk : kernelTable = (m.tableAt R.kernel p).getD 0) (i : Index) :
    (if kernelTable = 0 then 0#64 else n.mem kernelTable i) = kernelEntryAt R m p i := by
  unfold kernelEntryAt
  cases h : m.tableAt R.kernel p with
  | none =>
    rw [h] at hk
    exact if_pos hk
  | some t₀ =>
    rw [h, Option.getD_some] at hk
    have hne : t₀ ≠ 0 := (hS.backed t₀ ⟨R.kernel, p, .inl rfl, h⟩).nonzero
    rw [hk, if_neg hne, hmem]

omit hL hkernel in
/-- The table it takes for the kernel's one level further down. -/
theorem kernelTable_eq {e : Entry} (hn : 1 < 4 - p.length)
    (hlarge : p = [] → has (kernelEntryAt R m p i) present →
      has (kernelEntryAt R m p i) largePage = false)
    (he : child (4 - p.length) e = child (4 - p.length) (kernelEntryAt R m p i))
    (htop : p = [] → e = kernelEntryAt R m p i) :
    (if has e present && !has e largePage then frameOf e else 0) =
      (m.tableAt R.kernel (p ++ [i])).getD 0 := by
  rw [tableAt_kernel_concat, ← he]
  unfold child
  cases hp : has e present with
  | false => rw [if_neg (by simp), if_neg (by simp)]; rfl
  | true =>
    cases hl : has e largePage with
    | false => rw [if_pos (by rfl), if_pos ⟨hn, rfl, .inr rfl⟩]; rfl
    | true =>
      rw [if_neg (by simp), if_neg]
      · rfl
      · rintro ⟨-, -, h4 | hfalse⟩
        · have hnil : p = [] := length_eq_zero_iff.mp (by omega)
          rw [htop hnil] at hp hl
          rw [hlarge hnil hp] at hl
          cases hl
        · cases hfalse

/-- A slot of an own table that is empty, or as the kernel has it, is passed over. -/
private theorem sweep_slot (hO : Owned R m r p t) (h : Torn m F n) {n' : Machine}
    (hrest : has (m.mem t i) present →
      ¬ m.mem t i &&& ~~~ privateTable = kernelEntryAt R m p i &&& ~~~ privateTable →
      Sweeps m F (Behind R m r p i) n') :
    Sweeps m F (Behind R m r p i) (if !has (m.mem t i) present then n
      else if m.mem t i &&& ~~~ privateTable = kernelEntryAt R m p i &&& ~~~ privateTable then n
      else n') := by
  by_cases hpres : has (m.mem t i) present
  case neg =>
    rw [if_pos (by simpa using hpres)]
    exact h.sweeps fun f => hO.not_behind_slot (child_eq_none_of_absent (by simpa using hpres))
  rw [if_neg (by simpa using hpres)]
  split_ifs with hsame
  · exact h.sweeps fun f => not_behind_of_baseline hL.space hkernel hO hsame
  · exact hrest hpres hsame

/-- **`freePrivateTable`** frees exactly the own tables behind the slots of an
own table. -/
theorem freePrivateTable_sweeps (level : Nat) :
    ∀ (p : List Index) (t : Frame) (kernelEntry : Entry) (va : BitVec 64) (F : List Frame)
      (n : Machine), p ≠ [] → p.length + level = 4 → Owned R m r p t →
      (if has kernelEntry present && !has kernelEntry largePage then frameOf kernelEntry else 0) =
        (m.tableAt R.kernel p).getD 0 → Torn m F n → Sweeps m F (fun f => ∃ i, Behind R m r p i f)
        (freePrivateTable level n t kernelEntry va) := by
  induction level with
  | zero =>
    intro p t _ _ _ _ _ hlen hO
    have := hO.length_le
    omega
  | succ level ih =>
    intro p t kernelEntry va F n hp hlen hO hk h
    have hlevel : 4 - p.length = level + 1 := by omega
    have hpos : 1 ≤ p.length := length_pos_iff.mpr hp
    unfold freePrivateTable
    rw [if_neg (hO.backed hL.space).nonzero]
    have hscope : ∀ i, R.InScope (p ++ [i]) := by
      intro i k hk
      apply hO.scope k
      cases p with
      | nil => exact absurd rfl hp
      | cons a p => exact hk
    have hall : (fun f => ∃ i, Behind R m r p i f) =
        fun f => ∃ i ∈ indices, Behind R m r p i f := by
      funext f
      exact propext ⟨fun ⟨i, hi⟩ => ⟨i, mem_indices i, hi⟩, fun ⟨i, _, hi⟩ => ⟨i, hi⟩⟩
    rw [hall]
    refine sweep_slots indices ?_ F n h
    intro i _ F n h
    rw [baseline_eq hL.space h.mem hk i, h.mem]
    refine sweep_slot hL hkernel hO h fun hpres hsame => ?_
    by_cases huser : has (m.mem t i) userSuper
    case neg =>
      -- the entry of an own table would be a user entry
      rw [if_pos (by simpa using huser)]
      refine h.sweeps (fun f hbehind => huser ?_)
      obtain ⟨u, hU⟩ := hbehind.next
      exact hL.inherits.user p t i u hp hO hU
    rw [if_neg (by simpa using huser)]
    by_cases hleaf : level = 0 ∨ has (m.mem t i) largePage
    · rw [if_pos (by simpa using hleaf)]
      refine (h.leaf (m.mem t i) (level + 1) _).sweeps (fun f => hO.not_behind_slot ?_)
      rcases hleaf with rfl | hl
      · rw [hlevel]
        exact child_one _
      · exact child_eq_none_of_large (by omega) hl
    · rw [if_neg (by simpa using hleaf)]
      obtain ⟨hzero, hl⟩ := not_or.mp hleaf
      rw [Bool.not_eq_true] at hl
      have hU := owned_of_differs hO hL.inherits (hscope i)
        (child_eq_some (by omega) hpres (.inr hl)) hsame
      apply hL.sweep_table hkernel hU
      refine ih (p ++ [i]) (frameOf (m.mem t i)) _ _ F n (by simp) (by simp; omega) hU ?_ h
      refine kernelTable_eq (by omega) (fun hnil => absurd hnil hp) ?_ (fun hnil => absurd hnil hp)
      rw [hlevel]
      unfold child
      have h4 : level + 1 ≠ 4 := by omega
      cases hkp : has (kernelEntryAt R m p i) present with
      | false => simp [has_zero]
      | true =>
        cases hkl : has (kernelEntryAt R m p i) largePage with
        | false => simp [hkp, hkl]
        | true => simp [has_zero, h4]

/-- A slot of the root in `FreeAddressSpace`. -/
private theorem sweep_top (hr : r ∈ R.procs) (hscope : R.scope i) (h : Torn m F n) :
    Sweeps m F (Behind R m r [] i) (if !has (n.mem r i) present then n
      else if n.mem r i &&& ~~~ privateTable =
        (if n.kernelPml4 = 0 then 0#64 else n.mem n.kernelPml4 i) &&& ~~~ privateTable then n
      else if has (n.mem r i) largePage then freeMappedFrames n (n.mem r i) 4 (i.setWidth 64 <<< 39)
      else freeTable (freePrivateTable 3 n (frameOf (n.mem r i))
          (if n.kernelPml4 = 0 then 0#64 else n.mem n.kernelPml4 i) (i.setWidth 64 <<< 39))
          (frameOf (n.mem r i))) := by
  have hroot : Owned R m r [] r := .ofRoot hr
  have hne : R.kernel ≠ 0 := (hL.space.backed R.kernel ⟨R.kernel, [], .inl rfl, rfl⟩).nonzero
  rw [h.kernel, hL.space.kernel, if_neg hne, h.mem]
  refine sweep_slot hL hkernel hroot h fun hpres hsame => ?_
  have hl : has (m.mem r i) largePage = false := hL.space.top r hr i hscope hpres
  rw [if_neg (by rw [hl]; decide)]
  have hin : R.InScope ([] ++ [i]) := by
    intro k hk
    obtain rfl : i = k := by simpa using hk
    exact hscope
  have hU := owned_of_differs hroot hL.inherits hin
    (child_eq_some (by decide) hpres (.inr hl)) hsame
  apply hL.sweep_table hkernel hU
  refine freePrivateTable_sweeps hL hkernel 3 ([] ++ [i]) _ _ _ F n (by simp) (by simp) hU ?_ h
  exact kernelTable_eq (by decide) (fun _ => hL.inherits.top i hscope) rfl (fun _ => rfl)

/-- **`FreeAddressSpace`** frees exactly the own tables of the address space,
the root included. -/
theorem freeAddressSpace_sweeps (hr : r ∈ R.procs)
    (hscope : ∀ i, R.scope i ↔ i ∈ indices.take 256) :
    Sweeps m [] (fun f => ∃ p, Owned R m r p f) (freeAddressSpace m r) := by
  have hroot : Owned R m r [] r := .ofRoot hr
  unfold freeAddressSpace
  rw [if_neg (hroot.backed hL.space).nonzero]
  obtain ⟨F, hF, hiff⟩ := sweep_slots (indices.take 256)
    (fun i hi F n h => sweep_top hL hkernel hr ((hscope i).mpr hi) h)
    [] m (.refl m)
  refine ⟨r :: F, hL.table hkernel hroot hF, ?_⟩
  intro f
  rw [mem_cons, hiff]
  constructor
  · rintro (rfl | h | ⟨i, -, s, hs⟩)
    · exact .inr ⟨[], hroot⟩
    · exact .inl h
    · exact .inr ⟨_, hs⟩
  · rintro (h | ⟨p, hO⟩)
    · exact .inr (.inl h)
    · cases p with
      | nil => exact .inl (hO.unique hroot)
      | cons i s =>
        refine .inr (.inr ⟨i, (hscope i).mp ?_, s, hO⟩)
        exact hO.scope i rfl

/-- After the teardown of an address space with a ledger the recorded tables
are those from before, and no other frame is used that was not. -/
theorem Ledger.torn_down (hr : r ∈ R.procs) (hscope : ∀ i, R.scope i ↔ i ∈ indices.take 256)
    (hdeferred : m.deferred = []) : (freeAddressSpace m r).trace.tables = base ∧
      ∀ k, testFrame (freeAddressSpace m r).pmm k → testFrame s0 k := by
  obtain ⟨F, hF, hiff⟩ := freeAddressSpace_sweeps hL hkernel hr hscope
  obtain ⟨new, hB⟩ := hL.books
  have hnew : ∀ f, f ∈ F ↔ f ∈ new := by
    intro f
    rw [hiff, hB.held]
    unfold Held
    rw [hdeferred]
    simp
  refine ⟨?_, ?_⟩
  · rw [hF.tables, hB.tables, filter_append]
    have hgone : new.filter (fun f => decide (f ∉ F)) = [] := by
      rw [filter_eq_nil_iff]
      intro f hf
      simpa using (hnew f).mpr hf
    have hkept : base.filter (fun f => decide (f ∉ F)) = base := by
      rw [filter_eq_self]
      intro f hf
      have hdisjoint := (nodup_append.mp hB.nodup).2.2
      simpa using fun hfF => hdisjoint f ((hnew f).mp hfF) f hf rfl
    rw [hgone, hkept, nil_append]
  · intro k hk
    rcases hB.leaks k (hF.releases.test k hk) with h | ⟨f, hf, rfl⟩
    · exact h
    · rw [hF.cleared f ((hnew f).mpr hf)] at hk
      cases hk

end

end InstantOS.Vmm

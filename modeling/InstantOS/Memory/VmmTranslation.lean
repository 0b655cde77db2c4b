import InstantOS.Memory.VmmUnmap

/-!
# What the calls do to translations

`VirtualToPhysicalIn` reads the page of an address off the walk, so the page
results of the two modules before give the effect of `MapPageInto` and
`UnmapRangeFrom` on every translation of the process and of the kernel.

The walk reads bits 12 to 47 of an address; `virtualPage` is that number.  Two
canonical addresses have the same one exactly when they lie in one page.
-/

namespace InstantOS.Vmm

open BitVec

variable {R : Family} {m m' : Machine} {r : Frame}

/-! ## Virtual pages -/

/-- The bits of an address that the walk reads. -/
def virtualPage (a : BitVec 64) : BitVec 36 := a.extractLsb' 12 36

theorem virtualPage_getLsbD (a : BitVec 64) (k : Nat) :
    (virtualPage a).getLsbD k = (decide (k < 36) && a.getLsbD (12 + k)) := by
  unfold virtualPage
  rw [getLsbD_extractLsb']

private theorem index_getLsbD (a : BitVec 64) (shift k : Nat) :
    ((a >>> shift).setWidth 9 : Index).getLsbD k = (decide (k < 9) && a.getLsbD (shift + k)) := by
  rw [getLsbD_setWidth, getLsbD_ushiftRight]

/-- Equal indices are equal bits. -/
private theorem bit_of_index {a b : BitVec 64} {shift : Nat}
    (h : ((a >>> shift).setWidth 9 : Index) = (b >>> shift).setWidth 9) {k : Nat}
    (hlo : shift ≤ k) (hhi : k < shift + 9) : a.getLsbD k = b.getLsbD k := by
  have hbit := congrArg (fun v => v.getLsbD (k - shift)) h
  have hk : shift + (k - shift) = k := by omega
  have hlt : k - shift < 9 := by omega
  simp only [index_getLsbD, hk, hlt] at hbit
  exact hbit

private theorem index_of_bits {a b : BitVec 64} {shift : Nat}
    (h : ∀ k, shift ≤ k → k < shift + 9 → a.getLsbD k = b.getLsbD k) :
    ((a >>> shift).setWidth 9 : Index) = (b >>> shift).setWidth 9 := by
  apply eq_of_getLsbD_eq
  intro k hk
  rw [index_getLsbD, index_getLsbD, h (shift + k) (by omega) (by omega)]

/-- The four indices and the page number are the same information. -/
theorem path_eq_iff (a b : BitVec 64) : path a = path b ↔ virtualPage a = virtualPage b := by
  constructor
  · intro h
    simp only [path, List.cons.injEq, and_true] at h
    obtain ⟨h4, h3, h2, h1⟩ := h
    apply eq_of_getLsbD_eq
    intro k hk
    rw [virtualPage_getLsbD, virtualPage_getLsbD]
    congr 1
    rcases Nat.lt_or_ge k 9 with h9 | h9
    · exact bit_of_index h1 (by omega) (by omega)
    rcases Nat.lt_or_ge k 18 with h18 | h18
    · exact bit_of_index h2 (by omega) (by omega)
    · rcases Nat.lt_or_ge k 27 with h27 | h27
      · exact bit_of_index h3 (by omega) (by omega)
      · exact bit_of_index h4 (by omega) (by omega)
  · intro h
    have hbits : ∀ k, 12 ≤ k → k < 48 → a.getLsbD k = b.getLsbD k := by
      intro k hlo hhi
      have hbit := congrArg (fun v => v.getLsbD (k - 12)) h
      have hk : 12 + (k - 12) = k := by omega
      have hlt : k - 12 < 36 := by omega
      simp only [virtualPage_getLsbD, hk, hlt] at hbit
      exact hbit
    simp only [path, List.cons.injEq, and_true]
    exact ⟨index_of_bits fun k hlo hhi => hbits k (by omega) (by omega),
      index_of_bits fun k hlo hhi => hbits k (by omega) (by omega),
      index_of_bits fun k hlo hhi => hbits k (by omega) (by omega),
      index_of_bits fun k hlo hhi => hbits k (by omega) (by omega)⟩

theorem inRange_path (virtualBase : BitVec 64) (pageCount : Nat) (a : BitVec 64) :
    InRange virtualBase pageCount (path a) ↔ ∃ k, k < pageCount ∧
      virtualPage a = virtualPage (virtualBase + BitVec.ofNat 64 (k * 4096)) := by
  unfold InRange
  simp only [path_eq_iff]

/-! ## Translations -/

/-- The translation depends on the frame of the page only. -/
theorem virtualToPhysicalIn_congr {a : BitVec 64}
    (h : (m'.pageAt r (path a)).map Page.frame = (m.pageAt r (path a)).map Page.frame) :
    virtualToPhysicalIn m' r a = virtualToPhysicalIn m r a := by
  by_cases hr : r = 0
  · unfold virtualToPhysicalIn
    rw [if_pos hr, if_pos hr]
  rw [virtualToPhysicalIn_eq m' hr, virtualToPhysicalIn_eq m hr]
  cases hm' : m'.pageAt r (path a) with
  | none =>
    cases hm : m.pageAt r (path a) with
    | none => rfl
    | some l => rw [hm', hm] at h; cases h
  | some l' =>
    cases hm : m.pageAt r (path a) with
    | none => rw [hm', hm] at h; cases h
    | some l =>
      rw [hm', hm] at h
      have hframe : l'.frame = l.frame := Option.some.inj h
      simp only [Option.elim_some, hframe]

/-- The base of a page and an offset do not overlap. -/
theorem page_or_offset (pa a : BitVec 64) :
    (pa &&& addrMask) ||| (a &&& pageMask) =
      (pa &&& addrMask) + BitVec.ofNat 64 (a.toNat % 4096) := by
  have hoffset : BitVec.ofNat 64 (a.toNat % 4096) = a &&& pageMask := by
    apply eq_of_toNat_eq
    have hlt : a.toNat % 4096 < 2 ^ 64 := by omega
    rw [toNat_ofNat, Nat.mod_eq_of_lt hlt]
    exact (Nat.and_two_pow_sub_one_eq_mod a.toNat 12).symm
  have hdisjoint : (pa &&& addrMask) &&& (a &&& pageMask) = 0#64 := by
    apply eq_of_getLsbD_eq
    simp only [getLsbD_and, addrMask_getLsbD, pageMask_getLsbD]
    grind
  rw [hoffset, add_eq_or_of_and_eq_zero _ _ hdisjoint]

/-- The translations after `MapPageInto`. -/
theorem Mapped.translation {va pa flags : BitVec 64} (hne : r ≠ 0)
    (h : Mapped R m r va pa flags m') (hok : m'.trace.tableFailure = false) :
    (∀ a, virtualPage a = virtualPage va → virtualToPhysicalIn m' r a =
      (pa &&& addrMask) + BitVec.ofNat 64 (a.toNat % 4096)) ∧
    ∀ r' a, R.Root r' → ¬ (r' = r ∧ virtualPage a = virtualPage va) →
      virtualToPhysicalIn m' r' a = virtualToPhysicalIn m r' a := by
  constructor
  · intro a ha
    rcases h.here with hfail | ⟨-, hpage⟩
    · rw [hfail] at hok
      cases hok
    · rw [virtualToPhysicalIn_eq m' hne, (path_eq_iff a va).mpr ha, hpage]
      simp only [Option.elim_some, addrOf_frameOf]
      exact page_or_offset pa a
  · intro r' a hr' hother
    apply virtualToPhysicalIn_congr
    apply h.others r' (path a) hr' rfl
    rw [path_eq_iff]
    exact hother

/-- The translations after `UnmapRangeFrom`. -/
theorem Unmapped.translation {virtualBase : BitVec 64} {pageCount : Nat} (hne : r ≠ 0)
    (h : Unmapped R m r (InRange virtualBase pageCount) m') (hok : m'.trace.tableFailure = false) :
    (∀ a, (∃ k, k < pageCount ∧
        virtualPage a = virtualPage (virtualBase + BitVec.ofNat 64 (k * 4096))) →
      virtualToPhysicalIn m' r a = 0#64) ∧ ∀ r' a, R.Root r' → ¬ (r' = r ∧ ∃ k, k < pageCount ∧
        virtualPage a = virtualPage (virtualBase + BitVec.ofNat 64 (k * 4096))) →
      virtualToPhysicalIn m' r' a = virtualToPhysicalIn m r' a := by
  constructor
  · intro a ha
    rw [← inRange_path] at ha
    rcases h.gone (path a) rfl ha with hnone | ⟨hfail, -⟩
    · rw [virtualToPhysicalIn_eq m' hne, hnone]
      rfl
    · rw [hfail] at hok
      cases hok
  · intro r' a hr' hother
    rw [← inRange_path] at hother
    apply virtualToPhysicalIn_congr
    rw [h.kept r' (path a) hr' rfl hother]

/-- **The update law of the page tables.**  A process root and the kernel root
share only tables below entries without the private-table bit (`Space`, for the
top-level indices in `scope`).  When no table allocation fails, `MapPageInto`
translates the addresses of one page to the frame of `pa`, `UnmapRangeFrom`
makes the addresses of the range untranslated, and neither changes the
translation of any other address of the process or of any address of the
kernel. -/
theorem translation_update_law {scope : Index → Prop} {kernel pml4 : Frame} {m : Machine}
    (hS : Space ⟨kernel, [pml4], scope⟩ m) (hroots : kernel ≠ pml4) :
    (∀ (va pa flags : BitVec 64) (m' : Machine), scope (pml4Index va) →
      (mapPageInto pml4 va pa flags).exec m = m' → m'.trace.tableFailure = false →
      (∀ a, virtualPage a = virtualPage va → virtualToPhysicalIn m' pml4 a =
        (pa &&& addrMask) + BitVec.ofNat 64 (a.toNat % 4096)) ∧
      (pa &&& addrMask = pa → ∀ a, virtualPage a = virtualPage va →
        virtualToPhysicalIn m' pml4 a = pa + BitVec.ofNat 64 (a.toNat % 4096)) ∧
      (∀ a, virtualPage a ≠ virtualPage va →
        virtualToPhysicalIn m' pml4 a = virtualToPhysicalIn m pml4 a) ∧
      ∀ a, virtualToPhysicalIn m' kernel a = virtualToPhysicalIn m kernel a) ∧
    ∀ (virtualBase : BitVec 64) (pageCount : Nat) (m' : Machine),
      (∀ k, k < pageCount → scope (pml4Index (virtualBase + BitVec.ofNat 64 (k * 4096)))) →
      unmapRangeFrom m pml4 virtualBase pageCount = m' → m'.trace.tableFailure = false →
      (∀ a, (∃ k, k < pageCount ∧
          virtualPage a = virtualPage (virtualBase + BitVec.ofNat 64 (k * 4096))) →
        virtualToPhysicalIn m' pml4 a = 0#64) ∧ (∀ a, (¬ ∃ k, k < pageCount ∧
          virtualPage a = virtualPage (virtualBase + BitVec.ofNat 64 (k * 4096))) →
        virtualToPhysicalIn m' pml4 a = virtualToPhysicalIn m pml4 a) ∧
      ∀ a, virtualToPhysicalIn m' kernel a = virtualToPhysicalIn m kernel a := by
  have hproc : pml4 ∈ (⟨kernel, [pml4], scope⟩ : Family).procs := List.mem_singleton_self pml4
  have hproot : (⟨kernel, [pml4], scope⟩ : Family).Root pml4 := .inr hproc
  have hkroot : (⟨kernel, [pml4], scope⟩ : Family).Root kernel := .inl rfl
  have hne : pml4 ≠ 0 := (hS.backed pml4 ⟨pml4, [], hproot, rfl⟩).nonzero
  constructor
  · rintro va pa flags m' hscope rfl hok
    obtain ⟨hhere, hothers⟩ := (mapPageInto_mapped hS hproc va pa flags hscope).translation hne hok
    refine ⟨hhere, ?_, fun a ha => hothers pml4 a hproot (fun h => ha h.2),
      fun a => hothers kernel a hkroot (fun h => hroots h.1)⟩
    intro hpa a ha
    rw [hhere a ha, hpa]
  · rintro virtualBase pageCount m' hscope rfl hok
    obtain ⟨hhere, hothers⟩ :=
      (unmapRangeFrom_spec hS hproc virtualBase pageCount hscope).1.translation hne hok
    exact ⟨hhere, fun a ha => hothers pml4 a hproot (fun h => ha h.2),
      fun a => hothers kernel a hkroot (fun h => hroots h.1)⟩

/-! ## A small machine

Sixteen frames: the kernel root in frame 1, a process root in frame 2 and the
table of level 3 in frame 3 that both share, with one supervisor leaf of
1 GiB. -/

def samplePmm : Pmm.State where
  bitmap w := if w = 0 then 0xF#64 else 0#64
  refcount f := if f < 4 then 1 else 0
  bitmapAddr := 0
  refcountAddr := 0
  bitmapSize := 8
  totalFrames := 16
  usedFrames := 4
  usableFrames := 16
  allocCursor := 0
  initialized := true

/-- The entry of both roots for the shared table. -/
def sampleTop : Entry := 0x3007#64

/-- The leaf of 1 GiB in the shared table: present, writable, supervisor. -/
def sampleLeaf : Entry := 0x83#64

def sampleMachine : Machine where
  mem f i :=
    if i = 0#9 then
      (if f = 1#40 ∨ f = 2#40 then sampleTop else if f = 3#40 then sampleLeaf else 0#64)
    else 0#64
  pmm := samplePmm
  kernelPml4 := 1#40
  heapInitialized := true
  arenas := []
  deferred := []
  trace := ⟨[], false, [], []⟩

/-- Both roots and the shared table: nothing else is reached. -/
theorem sampleMachine_tableAt {r' t : Frame} {p : List Index} (hr' : r' = 1#40 ∨ r' = 2#40)
    (h : sampleMachine.tableAt r' p = some t) : p = [] ∧ t = r' ∨ p = [0#9] ∧ t = 3#40 := by
  have hleaf : ∀ j, child 3 (sampleMachine.mem 3#40 j) = none := by
    intro j
    by_cases hj : j = 0#9
    · subst hj
      decide
    · show child 3 (if j = 0#9 then _ else _) = none
      rw [if_neg hj]
      decide
  cases p with
  | nil => exact .inl ⟨rfl, (Option.some.inj h).symm⟩
  | cons i p =>
    refine .inr ?_
    unfold Machine.tableAt at h
    rw [Radix.tableAt_cons] at h
    by_cases hi : i = 0#9
    · subst hi
      have htop : child 4 (sampleMachine.mem r' 0#9) = some 3#40 := by
        rcases hr' with rfl | rfl
        · decide
        · decide
      rw [htop, Option.bind_some] at h
      cases p with
      | nil => exact ⟨rfl, (Option.some.inj h).symm⟩
      | cons j p =>
        rw [Radix.tableAt_cons, hleaf] at h
        cases h
    · have hnone : sampleMachine.mem r' i = 0#64 := if_neg hi
      rw [hnone] at h
      cases h

theorem sampleMachine_space : Space ⟨1#40, [2#40], fun _ => True⟩ sampleMachine := by
  have hroot : ∀ r', (⟨1#40, [2#40], fun _ => True⟩ : Family).Root r' → r' = 1#40 ∨ r' = 2#40 := by
    intro r' hr'
    exact hr'.imp id List.mem_singleton.mp
  have hreach : ∀ t, (⟨1#40, [2#40], fun _ => True⟩ : Family).Reaches sampleMachine t →
      t = 1#40 ∨ t = 2#40 ∨ t = 3#40 := by
    rintro t ⟨r', p, hr', ht⟩
    rcases sampleMachine_tableAt (hroot r' hr') ht with ⟨-, rfl⟩ | ⟨-, rfl⟩
    · exact (hroot t hr').imp id .inl
    · exact .inr (.inr rfl)
  refine
    { kernel := rfl
      separated := ⟨fun r' hr' => .inr hr', ?_⟩
      backed := ?_
      top := ?_
      pending := ?_
      frames := by decide
      heapFrames := fun _ _ _ => rfl
      heap := rfl }
  · intro r' p t hr' _ ht hmarked r'' q hr'' hq
    obtain rfl := List.mem_singleton.mp hr'
    rcases sampleMachine_tableAt (.inr rfl) ht with ⟨rfl, rfl⟩ | ⟨rfl, rfl⟩
    · rcases sampleMachine_tableAt (hroot r'' hr'') hq with ⟨rfl, h⟩ | ⟨-, h⟩
      · exact ⟨h.symm, rfl⟩
      · exact absurd h (by decide)
    · exact absurd (hmarked sampleTop (by decide)) (by decide)
  · intro t ht
    rcases hreach t ht with rfl | rfl | rfl
    · exact ⟨by decide, by decide +kernel, rfl⟩
    · exact ⟨by decide, by decide +kernel, rfl⟩
    · exact ⟨by decide, by decide +kernel, rfl⟩
  · intro r' hr' i _ hp
    obtain rfl := List.mem_singleton.mp hr'
    by_cases hi : i = 0#9
    · subst hi
      decide
    · have hnone : sampleMachine.mem 2#40 i = 0#64 := if_neg hi
      rw [hnone, has_zero]
  · intro t ht
    cases ht

/-- A page is mapped into the middle of the shared leaf, which is cloned and
split twice; a page of the leaf is unmapped. -/
theorem translation_update_law_sample :
    virtualToPhysicalIn ((mapPageInto 2#40 0x5000#64 0x9000#64 7#64).exec sampleMachine) 2#40
        0x5123#64 = 0x9123#64 ∧
      virtualToPhysicalIn ((mapPageInto 2#40 0x5000#64 0x9000#64 7#64).exec sampleMachine) 2#40
        0x6123#64 = virtualToPhysicalIn sampleMachine 2#40 0x6123#64 ∧
      virtualToPhysicalIn (unmapRangeFrom sampleMachine 2#40 0x7000#64 2) 2#40 0x8123#64 =
        0#64 := by
  have h := translation_update_law sampleMachine_space (by decide)
  have hmap := h.1 0x5000#64 0x9000#64 7#64 _ trivial rfl (by decide +kernel)
  have hunmap := h.2 0x7000#64 2 _ (fun _ _ => trivial) rfl (by decide +kernel)
  exact ⟨hmap.2.1 (by decide) _ (by decide), hmap.2.2.1 _ (by decide),
    hunmap.1 _ ⟨1, by decide, by decide⟩⟩

/-! ## The two translation routines -/

/-- A page of 2 MiB or 1 GiB maps `va`. -/
def largePageOn (m : Machine) (cr3 : Frame) (va : BitVec 64) : Bool :=
  let pml4e := m.mem cr3 (pml4Index va)
  let pdpte := m.mem (frameOf pml4e) (pdptIndex va)
  let pde := m.mem (frameOf pdpte) (pdIndex va)
  cr3 != 0 && has pml4e present && has pdpte present &&
    (has pdpte largePage || (has pde present && has pde largePage))

/-- The walk from `cr3` ends in a present leaf of any size. -/
def reachesLeaf (m : Machine) (cr3 : Frame) (va : BitVec 64) : Bool :=
  cr3 != 0 && (m.pageAt cr3 (path va)).isSome

/-- Only the test for large pages tells the two routines apart. -/
theorem virtualToPhysical_eq {m : Machine} {cr3 : Frame} {va : BitVec 64}
    (hl : largePageOn m cr3 va = false) :
    virtualToPhysical m true cr3 va = virtualToPhysicalIn m cr3 va := by
  unfold virtualToPhysical virtualToPhysicalIn
  unfold largePageOn at hl
  by_cases hr : cr3 = 0
  · simp [hr]
  cases h4 : has (m.mem cr3 (pml4Index va)) present with
  | false => simp [h4]
  | true =>
    grind

/-- The answer for failure: no leaf, or the first byte of frame 0. -/
theorem virtualToPhysicalIn_eq_zero_iff (m : Machine) {cr3 : Frame} (va : BitVec 64)
    (hr : cr3 ≠ 0) : virtualToPhysicalIn m cr3 va = 0#64 ↔
      ∀ page, m.pageAt cr3 (path va) = some page → page.frame = 0 ∧ va &&& pageMask = 0#64 := by
  rw [virtualToPhysicalIn_eq m hr]
  cases m.pageAt cr3 (path va) with
  | none => simp
  | some page =>
    have hframe : addrOf page.frame = 0#64 ↔ page.frame = 0 := by
      rw [← toNat_inj, ← toNat_inj, addrOf_toNat]
      simp
    simp only [Option.elim_some, Option.some.injEq, forall_eq', or_eq_zero_iff, hframe]

/-- Where no large page maps the address, the two routines agree, and `IsMapped`
answers for the leaf exactly when the address is not the first byte of a page
in frame 0: its translation 0 stands for failure. -/
theorem translation_routines_agree (m : Machine) (cr3 : Frame) (va : BitVec 64)
    (hl : largePageOn m cr3 va = false) :
    (virtualToPhysical m true cr3 va = virtualToPhysicalIn m cr3 va ∧
      isMapped m true cr3 va = reachesLeaf m cr3 va) ↔
    (cr3 ≠ 0 → ∀ page, m.pageAt cr3 (path va) = some page →
      ¬ (page.frame = 0 ∧ va &&& pageMask = 0#64)) := by
  have heq := virtualToPhysical_eq hl
  rw [isMapped, heq, reachesLeaf]
  by_cases hr : cr3 = 0
  · simp [hr, virtualToPhysicalIn]
  have hzero := virtualToPhysicalIn_eq_zero_iff m va hr
  cases hpage : m.pageAt cr3 (path va) with
  | none =>
    rw [hpage] at hzero
    simp [hzero.mpr]
  | some page =>
    rw [hpage] at hzero
    simp only [Option.some.injEq, forall_eq'] at hzero ⊢
    rw [← hzero, bne_iff_ne.mpr hr]
    simp only [ne_eq, hr, not_false_eq_true, forall_const, true_and, Option.isSome_some,
      Bool.and_self, bne_iff_ne]

/-- A page of 4 KiB mapped into the middle of the shared leaf. -/
theorem translation_routines_agree_sample :
    virtualToPhysical ((mapPageInto 2#40 0x5000#64 0x9000#64 7#64).exec sampleMachine) true 2#40
        0x5123#64 =
      virtualToPhysicalIn ((mapPageInto 2#40 0x5000#64 0x9000#64 7#64).exec sampleMachine) 2#40
        0x5123#64 ∧
    isMapped ((mapPageInto 2#40 0x5000#64 0x9000#64 7#64).exec sampleMachine) true 2#40 0x5123#64 =
      reachesLeaf ((mapPageInto 2#40 0x5000#64 0x9000#64 7#64).exec sampleMachine) 2#40 0x5123#64 :=
  (translation_routines_agree _ _ _ (by decide +kernel)).mpr (by decide +kernel)

/-- Inside the leaf of 1 GiB `VirtualToPhysical` takes the page for a table. -/
theorem translation_routines_differ : ¬ ∀ (m : Machine) (cr3 : Frame) (va : BitVec 64),
      virtualToPhysical m true cr3 va = virtualToPhysicalIn m cr3 va ∧
        isMapped m true cr3 va = reachesLeaf m cr3 va := by
  intro h
  exact absurd (h sampleMachine 2#40 0x5000#64).1 (by decide)

end InstantOS.Vmm

import InstantOS.Memory.VmmTeardown

/-!
# The address space of a new process

`initializeAddressSpace` of `src/cpu/process/process.cpp`: a new root gets the
kernel's entries for the upper half, and for the lower half private copies of
the kernel's level 3 tables.

All writes go to new frames, so the address spaces that exist see nothing of
it.  `Nascent` describes the root under construction; when it is complete it
joins the family with a ledger.
-/

namespace InstantOS.Vmm

open Machine List

/-! ## The model -/

/-- The entry of the lower half that names the copy of a kernel table. -/
def inheritedEntry (newPdpt : Frame) (e : Entry) : Entry :=
  addrOf newPdpt ||| (e &&& ~~~ addrMask) ||| privateTable

/-- One round of the loop over the lower half. -/
def inheritEntry (pml4 : Frame) (i : Index) : Op Unit := do
  let kernel ← Cmd.read Machine.kernelPml4
  let e ← getEntry ⟨kernel, i⟩
  if has e present then
    let newPdpt ← allocTable
    Cmd.update fun m => m.setFrame newPdpt fun j => m.mem (frameOf e) j &&& ~~~ privateTable
    putEntry ⟨pml4, i⟩ (inheritedEntry newPdpt e)
  else pure ()

/-- The loop over the upper half: the kernel's entries are copied as they are. -/
def copyUpperHalf (m : Machine) (pml4 : Frame) : Machine :=
  m.setFrame pml4 fun i =>
    if 256 ≤ i.toNat then m.mem m.kernelPml4 i else m.mem pml4 i

/-- The loop over the lower half. -/
def inheritLowerHalf (pml4 : Frame) : List Index → Op Unit
  | [] => pure ()
  | i :: l => do
      inheritEntry pml4 i
      inheritLowerHalf pml4 l

/-- Both loops; a failure frees what was built. -/
def inheritKernel (pml4 : Frame) (low : List Index) (m : Machine) : Option Frame × Machine :=
  match inheritLowerHalf pml4 low (copyUpperHalf m pml4) with
  | (none, m) => (none, freeAddressSpace m pml4)
  | (some (), m) => (some pml4, m)

/-- `initializeAddressSpace`: the new root, or `none` after a failure. -/
def initializeAddressSpace (m : Machine) : Option Frame × Machine :=
  match allocTable m with
  | (none, m) => (none, m)
  | (some pml4, m) =>
    if m.kernelPml4 = 0 then (none, freeAddressSpace m pml4)
    else inheritKernel pml4 (indices.take 256) m

/-! ## Entries of the lower half -/

variable {R : Family} {m m' : Machine} {r t u v root : Frame} {p q : List Index} {i j : Index}
  {base : List Frame} {s₀ : Pmm.State} {done : Index → Prop} {copy : Index → Option Frame}

section

variable (u : Frame) (e : Entry)

theorem frameOf_inheritedEntry : frameOf (inheritedEntry u e) = u := by
  unfold inheritedEntry
  rw [BitVec.or_assoc]
  exact frameOf_addrOf_or u (flags_or (flags_and_not e) (by decide))

theorem present_inheritedEntry : has (inheritedEntry u e) present = has e present := by
  rw [has_present, has_present]
  simp [inheritedEntry, addrOf, addrMask, privateTable]

theorem large_inheritedEntry : has (inheritedEntry u e) largePage = has e largePage := by
  rw [has_largePage, has_largePage]
  simp [inheritedEntry, addrOf, addrMask, privateTable]

theorem private_inheritedEntry : has (inheritedEntry u e) privateTable := by
  rw [has_privateTable]
  simp [inheritedEntry, privateTable]

end

theorem mem_lowIndices : i ∈ indices.take 256 ↔ i.toNat < 256 := by
  have htake : indices.take 256 = (range 256).map (BitVec.ofNat 9) := by
    unfold indices
    rw [← map_take, take_range]
    rfl
  rw [htake, mem_map]
  constructor
  · rintro ⟨k, hk, rfl⟩
    rw [mem_range] at hk
    rw [BitVec.toNat_ofNat]
    omega
  · intro hi
    exact ⟨i.toNat, mem_range.mpr hi, BitVec.ofNat_toNat 9 i⟩

theorem nodup_lowIndices : (indices.take 256).Nodup := by
  have hall : indices.Nodup := by
    refine List.Nodup.map_on ?_ nodup_range
    intro a ha b hb h
    rw [mem_range] at ha hb
    have hnat := congrArg BitVec.toNat h
    rw [BitVec.toNat_ofNat, BitVec.toNat_ofNat] at hnat
    omega
  exact hall.sublist (take_sublist 256 indices)

/-! ## Frames that no root reaches -/

theorem Spare.setFrame (hu : Spare R m u) (hv : ¬ R.Reaches m v) (words : Index → BitVec 64) :
    Spare R (m.setFrame v words) u := by
  have hout : Outside R m (m.setFrame v words) := .setFrame hv words
  exact ⟨hu.space.setFrame hv words, { hu.backed with },
    fun h => hu.unreached ((hout.reaches u).mp h), hu.notDeferred⟩

/-- An entry is written like a whole frame. -/
theorem setEntry_eq_setFrame (m : Machine) (t : Frame) (i : Index) (e : Entry) :
    m.setEntry ⟨t, i⟩ e = m.setFrame t (fun j => if j = i then e else m.mem t j) := by
  unfold setEntry setFrame
  congr 1
  funext f j
  by_cases hf : f = t
  · subst hf
    simp
  · simp [hf]

variable {pmm : Pmm.State}

theorem Spare.withTable (hu : Spare R m u) (hgrant : TableTaken m.pmm v pmm) :
    Spare R (m.withTable v pmm) u := by
  have hout := Outside.withTable hu.space hgrant
  refine ⟨hu.space.withTable hgrant, ⟨hu.backed.nonzero, ?_, hu.backed.notHeap⟩,
    fun h => hu.unreached ((hout.reaches u).mp h), hu.notDeferred⟩
  show Pmm.testFrame pmm u.toNat
  rw [hgrant.test, hu.backed.used, Bool.or_true]

/-- A new table is spare, and it is not one that was spare before. -/
theorem Space.spare_new (hS : Space R m) (hgrant : TableTaken m.pmm u pmm) :
    Spare R (m.withTable u pmm) u :=
  ⟨hS.withTable hgrant, newTable_backed hS hgrant,
    fun h => newTable_unreached hS hgrant (((Outside.withTable hS hgrant).reaches u).mp h),
    show u ∉ m.deferred from newTable_not_deferred hS hgrant⟩

theorem Space.kernel_ne_new (hS : Space R m) (hgrant : TableTaken m.pmm u pmm) : R.kernel ≠ u := by
  intro h
  exact newTable_unreached hS hgrant ⟨R.kernel, [], .inl rfl, congrArg some h⟩

theorem Spare.ne_new (hv : Spare R m v) (hgrant : TableTaken m.pmm u pmm) : v ≠ u := by
  rintro rfl
  have hfree := hgrant.free v.toNat (by omega) (by omega)
  rw [hv.backed.used] at hfree
  cases hfree

/-! ## A root under construction -/

/-- The root `root` when the slots `done` of the lower half are finished.
`copy` gives the copies of kernel tables made so far. -/
structure Nascent (R : Family) (base : List Frame) (s₀ : Pmm.State) (root : Frame)
    (done : Index → Prop) (copy : Index → Option Frame) (m : Machine) : Prop where
  spare : Spare R m root
  copies : ∀ i u, copy i = some u → Spare R m u ∧ u ≠ root
  inj : ∀ i j u, copy i = some u → copy j = some u → i = j
  upper : ∀ i, 256 ≤ i.toNat → m.mem root i = m.mem R.kernel i
  lower : ∀ i, i.toNat < 256 →
    m.mem root i = (copy i).elim 0#64 fun u => inheritedEntry u (m.mem R.kernel i)
  source : ∀ i u, copy i = some u → i.toNat < 256 ∧ has (m.mem R.kernel i) present = true ∧
    ∀ j, m.mem u j = m.mem (frameOf (m.mem R.kernel i)) j &&& ~~~ privateTable
  all : ∀ i, done i → has (m.mem R.kernel i) present = true → copy i ≠ none
  drawn : ∃ new, Drawn base s₀ m new ∧ ∀ f, f ∈ new ↔ f = root ∨ ∃ i, copy i = some f
  batch : m.deferred = []
  top : ∀ i, i.toNat < 256 → has (m.mem R.kernel i) present = true →
    has (m.mem R.kernel i) largePage = false

/-- The tables of the kernel are left alone. -/
private theorem Outside.kernel_words (h : Outside R m m') :
    (∀ i, m'.mem R.kernel i = m.mem R.kernel i) ∧ ∀ i, has (m.mem R.kernel i) present →
        ∀ j, m'.mem (frameOf (m.mem R.kernel i)) j = m.mem (frameOf (m.mem R.kernel i)) j := by
  refine ⟨fun i => h.agree _ i ⟨R.kernel, [], .inl rfl, rfl⟩, ?_⟩
  intro i hp j
  refine h.agree _ j ⟨R.kernel, [i], .inl rfl, ?_⟩
  rw [Radix.tableAt_cons, child_eq_some (by decide) hp (.inl rfl)]
  rfl

/-- **One more copy**: the slot `i` gets a private copy of the kernel's table. -/
theorem Nascent.step (hN : Nascent R base s₀ root done copy m)
    (hgrant : TableTaken m.pmm u pmm) (hi : i.toNat < 256)
    (hp : has (m.mem R.kernel i) present) (hnone : copy i = none) :
    Nascent R base s₀ root (fun k => done k ∨ k = i) (fun k => if k = i then some u else copy k)
      (((m.withTable u pmm).setFrame u fun j =>
        (m.withTable u pmm).mem (frameOf (m.mem R.kernel i)) j &&& ~~~ privateTable).setEntry
          ⟨root, i⟩ (inheritedEntry u (m.mem R.kernel i))) := by
  have hS := hN.spare.space
  have hne : root ≠ u := hN.spare.ne_new hgrant
  let m1 := m.withTable u pmm
  let words := fun j => m1.mem (frameOf (m.mem R.kernel i)) j &&& ~~~ privateTable
  let m2 := m1.setFrame u words
  let top := fun j => if j = i then inheritedEntry u (m.mem R.kernel i) else m2.mem root j
  rw [setEntry_eq_setFrame]
  change Nascent R base s₀ root _ _ (m2.setFrame root top)
  have hu : Spare R m1 u := hS.spare_new hgrant
  have hroot : Spare R m1 root := hN.spare.withTable hgrant
  have hroot2 : Spare R m2 root := hroot.setFrame hu.unreached words
  have hkeep : ∀ v, Spare R m1 v → Spare R (m2.setFrame root top) v := fun v hv =>
    (hv.setFrame hu.unreached words).setFrame hroot2.unreached top
  have hout1 : Outside R m m1 := .withTable hS hgrant
  have hout2 : Outside R m m2 := hout1.trans (.setFrame hu.unreached words)
  obtain ⟨hkernel, hsource⟩ := (hout2.trans (.setFrame hroot2.unreached top)).kernel_words
  -- the words of the three kinds of frames
  have hmem : ∀ f j, (m2.setFrame root top).mem f j =
      if f = root then top j else if f = u then words j else m.mem f j := by
    intro f j
    show (if f = root then top j else if f = u then words j else
      if f = u then 0#64 else m.mem f j) = _
    split
    · rfl
    · split <;> rfl
  have htop : ∀ j, top j = if j = i then inheritedEntry u (m.mem R.kernel i)
      else m.mem root j := by
    intro j
    show (if j = i then _ else if root = u then words j else
      if root = u then 0#64 else m.mem root j) = _
    rw [if_neg hne, if_neg hne]
  refine
    { spare := hkeep root hroot
      copies := ?_
      inj := ?_
      upper := ?_
      lower := ?_
      source := ?_
      all := ?_
      drawn := ?_
      batch := hN.batch
      top := by intro k; rw [hkernel]; exact hN.top k }
  · intro k v hv
    split at hv
    · obtain rfl := Option.some.inj hv
      exact ⟨hkeep _ hu, hne.symm⟩
    obtain ⟨hspare, hvr⟩ := hN.copies k v hv
    exact ⟨hkeep v (hspare.withTable hgrant), hvr⟩
  · intro k l v hk hl
    have hold : ∀ k', copy k' = some v → v ≠ u := fun k' h => (hN.copies k' v h).1.ne_new hgrant
    split at hk
    · split at hl
      · rename_i h h'
        rw [h, h']
      · exact absurd (Option.some.inj hk).symm (hold l hl)
    · split at hl
      · exact absurd (Option.some.inj hl).symm (hold k hk)
      · exact hN.inj k l v hk hl
  · intro k hk
    rw [hmem, if_pos rfl, htop, if_neg (by rintro rfl; omega), hkernel]
    exact hN.upper k hk
  · intro k hk
    rw [hmem, if_pos rfl, htop, hkernel]
    by_cases hki : k = i
    · subst hki
      rw [if_pos rfl, if_pos rfl]
      rfl
    · rw [if_neg hki, if_neg hki]
      exact hN.lower k hk
  · intro k v hv
    rw [hkernel]
    split at hv
    · rename_i hki
      obtain rfl := Option.some.inj hv
      rw [hki]
      refine ⟨hi, hp, ?_⟩
      intro j
      rw [hsource i hp, hmem, if_neg hne.symm, if_pos rfl, ← hout1.kernel_words.2 i hp]
    · obtain ⟨hlow, hpk, hw⟩ := hN.source k v hv
      obtain ⟨hspare, hvr⟩ := hN.copies k v hv
      refine ⟨hlow, hpk, ?_⟩
      intro j
      rw [hsource k hpk, hmem, if_neg hvr, if_neg (hspare.ne_new hgrant)]
      exact hw j
  · intro k hk hpk
    rw [hkernel] at hpk
    split
    · simp
    · rename_i hki
      exact hN.all k (hk.resolve_right hki) hpk
  · obtain ⟨new, hD, hnew⟩ := hN.drawn
    refine ⟨u :: new, hD.add hgrant rfl, ?_⟩
    intro f
    rw [mem_cons, hnew]
    constructor
    · rintro (rfl | rfl | ⟨k, hk⟩)
      · exact .inr ⟨i, if_pos rfl⟩
      · exact .inl rfl
      · have hki : k ≠ i := by
          rintro rfl
          rw [hnone] at hk
          cases hk
        exact .inr ⟨k, (if_neg hki).trans hk⟩
    · rintro (rfl | ⟨k, hk⟩)
      · exact .inr (.inl rfl)
      · split at hk
        · exact .inl (Option.some.inj hk).symm
        · exact .inr (.inr ⟨k, hk⟩)

/-- The root before the loop over the lower half. -/
theorem nascent_root (hS : Space R m) (hbase : m.trace.tables.Nodup)
    (hused : ∀ f ∈ m.trace.tables, Pmm.testFrame m.pmm f.toNat) (hbatch : m.deferred = [])
    (htop : ∀ i, i.toNat < 256 → has (m.mem R.kernel i) present →
      has (m.mem R.kernel i) largePage = false) (hgrant : TableTaken m.pmm root pmm) :
    Nascent R m.trace.tables m.pmm root (fun _ => False) (fun _ => none)
      (copyUpperHalf (m.withTable root pmm) root) := by
  have hspare := hS.spare_new hgrant
  have hout := Outside.withTable hS hgrant
  have hdrawn : Drawn m.trace.tables m.pmm m [] :=
    ⟨rfl, hbase, hused, fun f hf => (by cases hf), fun n hn => .inl hn, hgrant.init⟩
  unfold copyUpperHalf
  refine
    { spare := hspare.setFrame hspare.unreached _
      copies := fun i u h => by cases h
      inj := fun i j u h => by cases h
      upper := ?_
      lower := ?_
      source := fun i u h => by cases h
      all := fun i h => h.elim
      drawn := ⟨[root], (hdrawn.add hgrant rfl).relabel rfl rfl, by simp⟩
      batch := hbatch
      top := ?_ }
  · intro i hi
    show (if root = root then _ else _) = if R.kernel = root then _ else _
    rw [if_pos rfl, if_neg (hS.kernel_ne_new hgrant), if_pos hi, hspare.space.kernel]
  · intro i hi
    show (if root = root then _ else _) = 0#64
    rw [if_pos rfl, if_neg (by omega)]
    exact if_pos rfl
  · intro i
    rw [(hout.trans (.setFrame hspare.unreached _)).kernel_words.1]
    exact htop i

theorem Nascent.tableFailed (hN : Nascent R base s₀ root done copy m) :
    Nascent R base s₀ root done copy m.tableFailed := by
  have hout : Outside R m m.tableFailed := ⟨rfl, rfl, fun _ _ _ => rfl⟩
  have hS : Space R m.tableFailed := (Change.tableFailed (r := root) (w := []) hN.spare.space).space
  have hspare : ∀ u, Spare R m u → Spare R m.tableFailed u := fun u hu =>
    ⟨hS, { hu.backed with }, fun h => hu.unreached ((hout.reaches u).mp h), hu.notDeferred⟩
  obtain ⟨new, hD, hnew⟩ := hN.drawn
  exact
    { hN with
      spare := hspare root hN.spare
      copies := fun i u h => (hN.copies i u h).imp_left (hspare u)
      drawn := ⟨new, hD.relabel rfl rfl, hnew⟩ }

/-- One round of the loop over the lower half. -/
theorem inheritEntry_spec (hN : Nascent R base s₀ root done copy m) (hi : i.toNat < 256)
    (hnone : copy i = none) : Cmd.Ends (inheritEntry root i) m
      (fun _ m' => ∃ copy', Nascent R base s₀ root (fun k => done k ∨ k = i) copy' m' ∧
        ∀ k, k ≠ i → copy' k = copy k) (Nascent R base s₀ root done copy) := by
  have hS := hN.spare.space
  apply Cmd.ends_read_bind
  rw [hS.kernel]
  apply Cmd.ends_ite
  · intro hp
    apply Cmd.ends_bind
    refine (allocTable_spec hS.frames).mono ?_ ?_
    · rintro u m1 ⟨pmm, hgrant, rfl⟩
      exact ⟨_, hN.step hgrant hi hp hnone, fun k hk => if_neg hk⟩
    · rintro m1 ⟨rfl, -⟩
      exact hN.tableFailed
  · intro hp
    refine ⟨copy, { hN with all := ?_ }, fun _ _ => rfl⟩
    rintro k (hk | rfl) hpk
    · exact hN.all k hk hpk
    · exact absurd hpk hp

/-- The loop over the lower half. -/
theorem inheritLowerHalf_spec (l : List Index) (hl : ∀ i ∈ l, i.toNat < 256) (hnodup : l.Nodup) :
    ∀ (done : Index → Prop) (copy : Index → Option Frame) (m : Machine),
      Nascent R base s₀ root done copy m → (∀ i ∈ l, copy i = none) →
      Cmd.Ends (inheritLowerHalf root l) m
        (fun _ m' => ∃ copy', Nascent R base s₀ root (fun k => done k ∨ k ∈ l) copy' m')
        (fun m' => ∃ done' copy', Nascent R base s₀ root done' copy' m') := by
  induction l with
  | nil =>
    intro done copy m hN _
    refine ⟨copy, ?_⟩
    simpa using hN
  | cons i l ih =>
    intro done copy m hN hnone
    obtain ⟨hnot, hnodup⟩ := nodup_cons.mp hnodup
    apply Cmd.ends_bind
    refine (inheritEntry_spec hN (hl i mem_cons_self) (hnone i mem_cons_self)).mono ?_
      (fun m1 h => ⟨_, _, h⟩)
    rintro _ m1 ⟨copy1, hN1, hother⟩
    have hnone1 : ∀ k ∈ l, copy1 k = none := by
      intro k hk
      rw [hother k (fun h => hnot (h ▸ hk))]
      exact hnone k (mem_cons_of_mem _ hk)
    refine (ih (fun k hk => hl k (mem_cons_of_mem _ hk)) hnodup _ _ m1 hN1 hnone1).mono ?_
      (fun m2 h => h)
    rintro _ m2 ⟨copy2, hN2⟩
    exact ⟨copy2, by simpa only [mem_cons, or_assoc] using hN2⟩

/-! ## The new root joins the family -/

/-- The family with one more process. -/
def Family.add (R : Family) (root : Frame) : Family := { R with procs := root :: R.procs }

theorem Family.root_add (h : (R.add root).Root r) : R.Root r ∨ r = root := by
  rcases h with h | h
  · exact .inl (.inl h)
  · rcases mem_cons.mp h with h | h
    · exact .inr h
    · exact .inl (.inr h)

section

variable (hN : Nascent R base s₀ root done copy m)

include hN

/-- The entry of a slot that has its copy. -/
theorem Nascent.slot (hc : copy i = some u) :
    m.mem root i = inheritedEntry u (m.mem R.kernel i) ∧ child 4 (m.mem root i) = some u := by
  obtain ⟨hi, hp, -⟩ := hN.source i u hc
  have hentry : m.mem root i = inheritedEntry u (m.mem R.kernel i) := by
    rw [hN.lower i hi, hc]
    rfl
  refine ⟨hentry, ?_⟩
  rw [hentry, child_eq_some (by decide) (by rw [present_inheritedEntry]; exact hp) (.inl rfl),
    frameOf_inheritedEntry]

/-- The entry of a slot that has none. -/
theorem Nascent.slot_none (hi : i.toNat < 256) (hc : copy i = none) : m.mem root i = 0#64 := by
  rw [hN.lower i hi, hc]
  rfl

/-- Through the new root one reaches the copies, and what the kernel reaches. -/
theorem Nascent.tableAt_root {s : List Index} (h : m.tableAt root (i :: s) = some v) :
    copy i = some v ∧ s = [] ∨ m.tableAt R.kernel (i :: s) = some v := by
  rw [tableAt, Radix.tableAt_cons] at h
  by_cases hi : i.toNat < 256
  · cases hc : copy i with
    | none =>
      rw [hN.slot_none hi hc] at h
      cases h
    | some u =>
      obtain ⟨-, hp, hwords⟩ := hN.source i u hc
      rw [(hN.slot hc).2, Option.bind_some] at h
      cases s with
      | nil => exact .inl ⟨h, rfl⟩
      | cons j s =>
        right
        rw [Radix.tableAt_cons, hwords j, child_unmark] at h
        rw [tableAt, Radix.tableAt_cons,
          child_eq_some (by decide) hp (.inl rfl), Option.bind_some, Radix.tableAt_cons]
        exact h
  · right
    rw [hN.upper i (by omega)] at h
    exact h

/-- The copies are the only tables behind the new root's private entries. -/
theorem Nascent.marked {s : List Index} (hi : i.toNat < 256) (h : m.tableAt root (i :: s) = some v)
    (hmark : ∀ e ∈ m.walk root (i :: s), has e privateTable) : copy i = some v ∧ s = [] := by
  rw [tableAt, Radix.tableAt_cons] at h
  cases hc : copy i with
  | none =>
    rw [hN.slot_none hi hc] at h
    cases h
  | some u =>
    have hchild := (hN.slot hc).2
    rw [hchild] at h
    cases s with
    | nil => exact ⟨h, rfl⟩
    | cons j s =>
      have hbad := hmark (m.mem u j) (by
        rw [walk, Radix.walk_cons, hchild, Option.elim_some, Radix.walk_cons]
        simp)
      rw [(hN.source i u hc).2.2 j, has_unmark_private] at hbad
      cases hbad

/-- The new root and the copies are reached by nothing but the new root. -/
private theorem Nascent.root_unique {r' : Frame} {p' : List Index} (hr' : (R.add root).Root r')
    (hv : ¬ R.Reaches m v) (h : m.tableAt r' p' = some v) :
    r' = root ∧ (p' = [] ∧ v = root ∨ ∃ i, p' = [i] ∧ copy i = some v) := by
  obtain rfl := (Family.root_add hr').resolve_left (fun hold => hv ⟨r', p', hold, h⟩)
  refine ⟨rfl, ?_⟩
  cases p' with
  | nil => exact .inl ⟨rfl, (Option.some.inj h).symm⟩
  | cons i s =>
    rcases hN.tableAt_root h with ⟨hc, rfl⟩ | hk
    · exact .inr ⟨i, rfl, hc⟩
    · exact absurd ⟨R.kernel, _, .inl rfl, hk⟩ hv

theorem Nascent.reaches_iff (h : (R.add root).Reaches m v) :
    R.Reaches m v ∨ v = root ∨ ∃ i, copy i = some v := by
  obtain ⟨r', q, hr', hq⟩ := h
  by_cases hv : R.Reaches m v
  · exact .inl hv
  right
  obtain ⟨-, ⟨-, heq⟩ | ⟨i, -, hc⟩⟩ := hN.root_unique hr' hv hq
  · exact .inl heq
  · exact .inr ⟨i, hc⟩

section

variable (hscope : ∀ i, R.scope i ↔ i.toNat < 256)

include hscope

/-- The tables of the new address space. -/
theorem Nascent.owned_iff :
    Owned (R.add root) m root p t ↔ p = [] ∧ t = root ∨ ∃ i, p = [i] ∧ copy i = some t := by
  constructor
  · rintro ⟨-, hin, hreached, hmarked⟩
    cases p with
    | nil => exact .inl ⟨rfl, (Option.some.inj hreached).symm⟩
    | cons i s =>
      obtain ⟨hc, rfl⟩ := hN.marked ((hscope i).mp (hin i rfl)) hreached hmarked
      exact .inr ⟨i, rfl, hc⟩
  · have hroot : Owned (R.add root) m root [] root := .ofRoot mem_cons_self
    rintro (⟨rfl, rfl⟩ | ⟨i, rfl, hc⟩)
    · exact hroot
    · obtain ⟨hentry, hchild⟩ := hN.slot hc
      have hin : (R.add root).InScope ([] ++ [i]) := by
        intro k hk
        obtain rfl : i = k := by simpa using hk
        exact (hscope i).mpr (hN.source i t hc).1
      refine hroot.below (e := m.mem root i) hin ?_ (hroot.tableAt_child hchild) ?_
      · rw [hroot.walk_slot, below_nil]
      · rw [hentry]
        exact private_inheritedEntry _ _

/-- **The invariant with the new root**: nothing it reaches through its private
entries is reached by anybody else. -/
theorem Nascent.space (hprocs : R.kernel ∉ R.procs) : Space (R.add root) m := by
  have hS := hN.spare.space
  have hfresh : ∀ p t, Owned (R.add root) m root p t → ¬ R.Reaches m t := by
    intro p t hO
    rcases (hN.owned_iff hscope).mp hO with ⟨-, rfl⟩ | ⟨i, -, hc⟩
    · exact hN.spare.unreached
    · exact (hN.copies i t hc).1.unreached
  refine { hS with
      separated := ⟨fun r hr => .inr hr, ?_⟩, backed := ?_, top := ?_, pending := ?_ }
  · intro r p t hr hin hreached hmarked r' p' hr' h'
    rcases mem_cons.mp hr with rfl | hold
    · -- a table of the new root
      have hO : Owned (R.add r) m r p t := ⟨hr, hin, hreached, hmarked⟩
      obtain ⟨rfl, hwhere'⟩ := hN.root_unique hr' (hfresh p t hO) h'
      refine ⟨rfl, ?_⟩
      rcases (hN.owned_iff hscope).mp hO with ⟨rfl, rfl⟩ | ⟨i, rfl, hc⟩
      · rcases hwhere' with ⟨hp', -⟩ | ⟨j, -, hc'⟩
        · exact hp'
        · exact absurd rfl (hN.copies j t hc').2
      · rcases hwhere' with ⟨-, rfl⟩ | ⟨j, rfl, hc'⟩
        · exact absurd rfl (hN.copies i t hc).2
        · rw [hN.inj i j t hc hc']
    · -- a table of another process is not reached through the new root
      have hunique := hS.separated.unique r p t hold hin hreached hmarked
      have hreach : R.Reaches m t := ⟨r, p, .inr hold, hreached⟩
      rcases Family.root_add hr' with hroot | rfl
      · exact hunique r' p' hroot h'
      cases p' with
      | nil => exact absurd (Option.some.inj h' ▸ hreach) hN.spare.unreached
      | cons i s =>
        rcases hN.tableAt_root h' with ⟨hc, -⟩ | hk
        · exact absurd hreach (hN.copies i t hc).1.unreached
        · exact absurd ((hunique R.kernel _ (.inl rfl) hk).1 ▸ hold) hprocs
  · intro t ht
    rcases hN.reaches_iff ht with h | rfl | ⟨i, hc⟩
    · exact hS.backed t h
    · exact hN.spare.backed
    · exact (hN.copies i t hc).1.backed
  · intro r hr i hi
    rcases mem_cons.mp hr with rfl | hold
    · intro hp
      cases hc : copy i with
      | none =>
        rw [hN.slot_none ((hscope i).mp hi) hc] at hp
        cases hp
      | some u =>
        rw [(hN.slot hc).1, large_inheritedEntry]
        exact hN.top i ((hscope i).mp hi) (hN.source i u hc).2.1
    · exact hS.top r hold i hi
  · intro t ht
    rw [hN.batch] at ht
    cases ht

/-- **A new address space has a ledger.** -/
theorem Nascent.ledger (hprocs : R.kernel ∉ R.procs) : Ledger (R.add root) root base s₀ m := by
  obtain ⟨new, hD, hnew⟩ := hN.drawn
  refine ⟨hN.space hscope hprocs, ⟨new, hD, ?_, by rw [hN.batch]; exact nodup_nil⟩,
    ?_, ?_, fun i hi => hN.top i ((hscope i).mp hi)⟩
  · intro f
    unfold Held
    rw [hnew, hN.batch]
    simp only [hN.owned_iff hscope, not_mem_nil, or_false]
    constructor
    · rintro (rfl | ⟨i, hc⟩)
      · exact ⟨[], .inl ⟨rfl, rfl⟩⟩
      · exact ⟨[i], .inr ⟨i, rfl, hc⟩⟩
    · rintro ⟨p, ⟨-, rfl⟩ | ⟨i, -, hc⟩⟩
      · exact .inl rfl
      · exact .inr ⟨i, hc⟩
  · intro p t i hO hin hchild hpriv
    rcases (hN.owned_iff hscope).mp hO with ⟨rfl, rfl⟩ | ⟨k, rfl, hc⟩
    · -- the root: its tables are its own
      cases hc : copy i with
      | none =>
        rw [hN.slot_none ((hscope i).mp (hin i rfl)) hc] at hchild
        exact absurd rfl hchild
      | some u =>
        rw [(hN.slot hc).1, private_inheritedEntry] at hpriv
        cases hpriv
    · -- a copy has the words of the kernel's table
      obtain ⟨-, hp, hwords⟩ := hN.source k t hc
      refine ⟨frameOf (m.mem R.kernel k), ?_, ?_⟩
      · show m.tableAt R.kernel [k] = _
        rw [tableAt, Radix.tableAt_cons, child_eq_some (by decide) hp (.inl rfl)]
        rfl
      · rw [hwords i, BitVec.and_assoc, BitVec.and_self]
  · intro p t i u hp _ hU
    rcases (hN.owned_iff hscope).mp hU with ⟨hnil, -⟩ | ⟨k, hone, -⟩
    · simp at hnil
    · have hlen := congrArg length hone
      rw [length_append, length_singleton, length_singleton] at hlen
      exact absurd (length_eq_zero_iff.mp (by omega)) hp

end

end

/-! ## The whole call -/

/-- What `initializeAddressSpace` leaves behind: a complete root, or no table and
no frame that was not used before. -/
def Created (R : Family) (m : Machine) : Option Frame × Machine → Prop
  | (some root, m') =>
    ∃ copy, Nascent R m.trace.tables m.pmm root (fun i => i.toNat < 256) copy m'
  | (none, m') => m'.trace.tables = m.trace.tables ∧
      ∀ k, Pmm.testFrame m'.pmm k = true → Pmm.testFrame m.pmm k = true

section

variable (hS : Space R m) (hscope : ∀ i, R.scope i ↔ i.toNat < 256) (hprocs : R.kernel ∉ R.procs)
  (htop : ∀ i, i.toNat < 256 → has (m.mem R.kernel i) present = true →
    has (m.mem R.kernel i) largePage = false)
  (hbase : m.trace.tables.Nodup)
  (hused : ∀ f ∈ m.trace.tables, Pmm.testFrame m.pmm f.toNat = true) (hbatch : m.deferred = [])

include hS hscope hprocs htop hbase hused hbatch

theorem inheritKernel_spec {low : List Index} (hlow : ∀ i, i ∈ low ↔ i.toNat < 256)
    (hnodup : low.Nodup) (hgrant : TableTaken m.pmm root pmm) :
    Created R m (inheritKernel root low (m.withTable root pmm)) := by
  have hloop := inheritLowerHalf_spec low (fun i hi => (hlow i).mp hi) hnodup _ _ _
    (nascent_root hS hbase hused hbatch htop hgrant) (fun _ _ => rfl)
  unfold Cmd.Ends at hloop
  unfold inheritKernel
  rcases hrun : inheritLowerHalf root low (copyUpperHalf (m.withTable root pmm) root) with
    ⟨_ | _, m2⟩
  · rw [hrun] at hloop
    obtain ⟨done, copy, hN⟩ := hloop
    exact (hN.ledger hscope hprocs).torn_down (hS.kernel_ne_new hgrant) mem_cons_self
      (fun i => (hscope i).trans mem_lowIndices.symm) hN.batch
  · rw [hrun] at hloop
    obtain ⟨copy, hN⟩ := hloop
    exact ⟨copy, by simpa only [false_or, hlow] using hN⟩

theorem initializeAddressSpace_spec : Created R m (initializeAddressSpace m) := by
  have halloc := allocTable_spec hS.frames
  unfold Cmd.Ends at halloc
  unfold initializeAddressSpace
  rcases hrun : allocTable m with ⟨_ | root, m1⟩
  · rw [hrun] at halloc
    obtain ⟨rfl, -⟩ := halloc
    exact ⟨rfl, fun _ h => h⟩
  rw [hrun] at halloc
  obtain ⟨pmm, hgrant, rfl⟩ := halloc
  have hne : (m.withTable root pmm).kernelPml4 ≠ 0 := by
    show m.kernelPml4 ≠ 0
    rw [hS.kernel]
    exact (hS.backed R.kernel ⟨R.kernel, [], .inl rfl, rfl⟩).nonzero
  dsimp only
  rw [if_neg hne]
  have hmem : ∀ i : Index, i ∈ indices.take 256 ↔ i.toNat < 256 := fun i => mem_lowIndices
  have hnodup := nodup_lowIndices
  -- 256 slots are too many to be looked at one by one
  generalize indices.take 256 = low at hmem hnodup ⊢
  exact inheritKernel_spec hS hscope hprocs htop hbase hused hbatch hmem hnodup hgrant

end

end InstantOS.Vmm

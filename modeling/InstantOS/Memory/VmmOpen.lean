import InstantOS.Memory.VmmSpace

/-!
# Opening the tables on the way to a page

variable {m₁ : Machine}

`MapPageInto` and `unmapLeaf` first make the tables on the way
to a page private: a missing table is allocated, a shared one is cloned, a
large leaf is split.  This module says what one such step does at one entry.

`Change` collects what holds of every step on the address space `r` below an
index list: the invariant, and that no other walk changes.  `Opened` adds what
was found at the entry and what stands there now.
-/

namespace InstantOS.Vmm

open Machine Cmd

/-! ## What table edits never touch -/

/-- The frame allocator handed out frames and took none back. -/
structure Grows (s s' : Pmm.State) : Prop where
  total : s'.totalFrames = s.totalFrames
  init : s'.initialized = s.initialized
  used : ∀ f, Pmm.testFrame s f = true → Pmm.testFrame s' f = true ∧ s'.refcount f = s.refcount f
  fresh : ∀ f, Pmm.testFrame s f = false → Pmm.testFrame s' f = true →
    0 < f ∧ f < s.totalFrames ∧ s'.refcount f = 1

theorem Grows.refl (s : Pmm.State) : Grows s s := by
  refine ⟨rfl, rfl, fun f h => ⟨h, rfl⟩, ?_⟩
  intro f hfree hused
  rw [hfree] at hused
  cases hused

theorem Grows.trans {s s' s'' : Pmm.State} (h : Grows s s') (h' : Grows s' s'') : Grows s s'' := by
  refine ⟨h'.total.trans h.total, h'.init.trans h.init, ?_, ?_⟩
  · intro f hused
    have h1 := h.used f hused
    have h2 := h'.used f h1.1
    exact ⟨h2.1, h2.2.trans h1.2⟩
  · intro f hfree hused
    cases hmid : Pmm.testFrame s' f with
    | false =>
      have h2 := h'.fresh f hmid hused
      rw [h.total] at h2
      exact h2
    | true =>
      have h1 := h.fresh f hfree hmid
      exact ⟨h1.1, h1.2.1, (h'.used f hmid).2.trans h1.2.2⟩

theorem Grows.ofGranted {s s' : Pmm.State} {start count : Nat}
    (h : Pmm.Granted s start count s') : Grows s s' := by
  refine ⟨h.shape.total, h.shape.init, ?_, ?_⟩
  · intro f hused
    have hout : ¬ (start ≤ f ∧ f < start + count) := by
      rintro ⟨hlo, hhi⟩
      rw [h.free f hlo hhi] at hused
      cases hused
    rw [h.test, h.ref, if_neg hout]
    exact ⟨by rw [hused, Bool.or_true], rfl⟩
  · intro f hfree hused
    rw [h.test, hfree, Bool.or_false, decide_eq_true_eq] at hused
    have hpos := h.pos
    have hbound := h.bound
    exact ⟨by omega, by omega, by rw [h.ref, if_pos hused]⟩

/-- What a step that only edits page tables leaves as it is. -/
structure Quiet (R : Family) (m m' : Machine) : Prop where
  arenas : m'.arenas = m.arenas
  deferred : m'.deferred = m.deferred
  freeCalls : m'.trace.freeCalls = m.trace.freeCalls
  kfreeCalls : m'.trace.kfreeCalls = m.trace.kfreeCalls
  failure : m.trace.tableFailure = true → m'.trace.tableFailure = true
  pmm : Grows m.pmm m'.pmm
  data : ∀ f, Pmm.testFrame m.pmm f.toNat = true → ¬ R.Reaches m f →
    m'.mem f = m.mem f ∧ ¬ R.Reaches m' f

theorem Quiet.refl (R : Family) (m : Machine) : Quiet R m m :=
  ⟨rfl, rfl, rfl, rfl, id, .refl _, fun _ _ h => ⟨rfl, h⟩⟩

theorem Quiet.trans {R : Family} {m m' m'' : Machine} (h : Quiet R m m') (h' : Quiet R m' m'') :
    Quiet R m m'' := by
  refine
    { arenas := h'.arenas.trans h.arenas
      deferred := h'.deferred.trans h.deferred
      freeCalls := h'.freeCalls.trans h.freeCalls
      kfreeCalls := h'.kfreeCalls.trans h.kfreeCalls
      failure := fun hf => h'.failure (h.failure hf)
      pmm := h.pmm.trans h'.pmm
      data := ?_ }
  intro f hused hnot
  have h1 := h.data f hused hnot
  have h2 := h'.data f (h.pmm.used f.toNat hused).1 h1.2
  exact ⟨h2.1.trans h1.1, h2.2⟩

/-- A step on the address space `r` below the index list `w`. -/
structure Change (R : Family) (m : Machine) (r : Frame) (w : List Index) (m' : Machine) :
    Prop where
  space : Space R m'
  elsewhere : ∀ r' q, R.Root r' → ¬ (r' = r ∧ w <+: q) →
    m'.walk r' q = m.walk r' q ∧ m'.tableAt r' q = m.tableAt r' q
  quiet : Quiet R m m'

variable {R : Family} {m m' m'' : Machine} {r t u : Frame} {p w : List Index} {i : Index}

theorem Change.refl (hS : Space R m) : Change R m r w m :=
  ⟨hS, fun _ _ _ _ => ⟨rfl, rfl⟩, .refl R m⟩

theorem Change.trans (h : Change R m r w m') (h' : Change R m' r w m'') : Change R m r w m'' := by
  refine ⟨h'.space, ?_, h.quiet.trans h'.quiet⟩
  intro r' q hr' hq
  have h1 := h.elsewhere r' q hr' hq
  have h2 := h'.elsewhere r' q hr' hq
  exact ⟨h2.1.trans h1.1, h2.2.trans h1.2⟩

/-- A step below a longer index list is one below a shorter one. -/
theorem Change.widen {w' : List Index} (h : Change R m r w m') (hw : w' <+: w) :
    Change R m r w' m' := by
  refine ⟨h.space, ?_, h.quiet⟩
  intro r' q hr' hq
  exact h.elsewhere r' q hr' (fun hsame => hq ⟨hsame.1, hw.trans hsame.2⟩)

/-- A table that is owned and does not lie below the index list stays owned. -/
theorem Change.owned (h : Change R m r w m') (hO : Owned R m r p t) (hp : ¬ w <+: p) :
    Owned R m' r p t :=
  hO.same (h.elsewhere r p hO.root fun hw => hp hw.2)

/-- Below the top level. -/
theorem level_ne_top (h : p ≠ []) : 4 - p.length ≠ 4 := by
  have := List.length_pos_iff.mpr h
  omega

theorem not_below_slot (p : List Index) (i : Index) : ¬ p ++ [i] <+: p := by
  intro h
  exact absurd h.length_le (by simp)

/-! ## The elementary steps -/

variable {e : Entry}

/-- A write to an owned table is none to a used frame that is no table. -/
private theorem quiet_setEntry (hO : Owned R m r p t)
    (hreach : ∀ v, R.Reaches (m.setEntry ⟨t, i⟩ e) v → R.Reaches m v) :
    Quiet R m (m.setEntry ⟨t, i⟩ e) := by
  refine ⟨rfl, rfl, rfl, rfl, id, .refl _, ?_⟩
  intro f _ hnot
  refine ⟨?_, fun h => hnot (hreach f h)⟩
  funext j
  have hne : f ≠ t := fun h => hnot (h ▸ hO.reaches)
  exact if_neg (fun h => hne h.1)

/-- Other flags in an entry of an owned table. -/
theorem Change.flags (hS : Space R m) (hO : Owned R m r p t)
    (hchild : child (4 - p.length) e = child (4 - p.length) (m.mem t i))
    (hpriv : has e privateTable → has (m.mem t i) privateTable)
    (htop : p = [] → has e present → has e largePage = false) :
    Change R m r (p ++ [i]) (m.setEntry ⟨t, i⟩ e) := by
  have hnew := hS.setEntry_flags hO hchild hpriv htop
  exact ⟨hnew.1, fun r' q hr' hq => hO.walk_elsewhere hS e hr' hq, quiet_setEntry hO hnew.2.1⟩

/-- A leaf, or nothing, in an entry of an owned table. -/
theorem Change.leaf (hS : Space R m) (hO : Owned R m r p t) (hchild : child (4 - p.length) e = none)
    (htop : p = [] → has e present → has e largePage = false) :
    Change R m r (p ++ [i]) (m.setEntry ⟨t, i⟩ e) := by
  have hnew := hS.setEntry_leaf (i := i) hO hchild htop
  exact ⟨hnew.1, fun r' q hr' hq => hO.walk_elsewhere hS e hr' hq, quiet_setEntry hO hnew.2.1⟩

theorem Change.tableFailed (hS : Space R m) : Change R m r w m.tableFailed := by
  have hout : Outside R m m.tableFailed := ⟨rfl, rfl, fun _ _ _ => rfl⟩
  refine ⟨hout.space hS ?_ ?_ hS.frames hS.heapFrames, fun _ q hr' _ => hout.walk hr' q, ?_⟩
  · intro v hv
    exact { hS.backed v hv with }
  · intro v hv
    have hp := hS.pending v hv
    exact ⟨{ hp.1 with }, hp.2⟩
  · exact ⟨rfl, rfl, rfl, rfl, fun _ => rfl, .refl _,
      fun f _ hnot => ⟨rfl, fun h => hnot ((hout.reaches f).mp h)⟩⟩

/-- The machine after a new table `u` with the given words was entered at a
slot. -/
def Machine.linked (m : Machine) (u : Frame) (pmm : Pmm.State) (words : Index → BitVec 64)
    (s : Slot) (e : Entry) : Machine :=
  ((m.withTable u pmm).setFrame u words).setEntry s e

/-- The table `u` with the given words stands at the entry now. -/
structure Links (R : Family) (m : Machine) (r : Frame) (p : List Index) (i : Index) (u : Frame)
    (e : Entry) (words : Index → BitVec 64) (m' : Machine) : Prop where
  change : Change R m r (p ++ [i]) m'
  table : m'.tableAt r (p ++ [i]) = some u
  walk : m'.walk r (p ++ [i]) = m.walk r p ++ [e]
  mem : ∀ j, m'.mem u j = words j
  below : ∀ j s, m'.walk r (p ++ i :: j :: s) =
    m.walk r p ++ e :: words j :: m.below (4 - p.length - 1) (words j) s

variable {pmm : Pmm.State}

/-- **Linking a new table.**  The words of the new table have the children that
the old entry had below it, unmarked, or none. -/
theorem Change.link {words : Index → BitVec 64}
    (hS : Space R m) (hO : Owned R m r p t) (hgrant : TableTaken m.pmm u pmm)
    (hchild : child (4 - p.length) e = some u)
    (hwords : ∀ j, child (4 - p.length - 1) (words j) = none ∨
      has (words j) privateTable = false ∧ ∃ t0, child (4 - p.length) (m.mem t i) = some t0 ∧
        child (4 - p.length - 1) (words j) = child (4 - p.length - 1) (m.mem t0 j))
    (htop : p = [] → has e present → has e largePage = false) :
    Links R m r p i u e words (m.linked u pmm words ⟨t, i⟩ e) := by
  let m₁ := (m.withTable u pmm).setFrame u words
  have hunreached : ¬ R.Reaches m u := newTable_unreached hS hgrant
  have hout0 := Outside.withTable hS hgrant
  have hunreached0 : ¬ R.Reaches (m.withTable u pmm) u :=
    fun h => hunreached ((hout0.reaches u).mp h)
  have hout : Outside R m m₁ := by
    have hset := Outside.setFrame hunreached0 words
    refine ⟨rfl, rfl, ?_⟩
    intro v j hv
    exact (hset.agree v j ((hout0.reaches v).mpr hv)).trans (hout0.agree v j hv)
  have hmem : ∀ v, v ≠ u → m₁.mem v = m.mem v := by
    intro v hv
    funext j
    exact (if_neg hv).trans (if_neg hv)
  have hu : ∀ j, m₁.mem u j = words j := fun _ => if_pos rfl
  have hnotDeferred := newTable_not_deferred hS hgrant
  have hspare : Spare R m₁ u :=
    ⟨(Space.withTable hS hgrant).setFrame hunreached0 words,
      { newTable_backed hS hgrant with }, fun h => hunreached ((hout.reaches u).mp h),
      hnotDeferred⟩
  have hO1 := hout.owned hO
  have htu : t ≠ u := fun h => hunreached (h ▸ hO.reaches)
  have hcovers : Covers m₁ (4 - p.length) (m₁.mem t i) u := by
    intro j
    rw [hu, hmem t htu]
    rcases hwords j with hnone | ⟨hpriv, t0, ht0, hsame⟩
    · exact .inl hnone
    · have hreach0 : R.Reaches m t0 := ⟨r, p ++ [i], hO.root, hO.tableAt_child ht0⟩
      have ht0u : t0 ≠ u := fun h => hunreached (h ▸ hreach0)
      exact .inr ⟨hpriv, t0, ht0, by rw [hmem t0 ht0u]; exact hsame⟩
  obtain ⟨hspace, hreaches, hwalk⟩ := hspare.setEntry hO1 hchild hcovers htop
  change Links R m r p i u e words (m₁.setEntry ⟨t, i⟩ e)
  have hp := hout.walk hO.root p
  refine ⟨⟨hspace, ?_, ?_⟩, (hwalk []).2, ?_, ?_, ?_⟩
  · intro r' q hr' hq
    have h1 := hO1.walk_elsewhere hspare.space e hr' hq
    have h2 := hout.walk hr' q
    exact ⟨h1.1.trans h2.1, h1.2.trans h2.2⟩
  · refine ⟨rfl, rfl, rfl, rfl, id, .ofGranted hgrant.toGranted, ?_⟩
    intro f hused hnot
    have hfu : f ≠ u := by
      rintro rfl
      rw [hgrant.free _ (by omega) (by omega)] at hused
      cases hused
    have hft : f ≠ t := fun h => hnot (h ▸ hO.reaches)
    constructor
    · funext j
      show (if f = t ∧ j = i then e else mem _ f j) = m.mem f j
      rw [if_neg (fun h => hft h.1), hmem f hfu]
    · intro h
      rcases hreaches f h with hold | rfl
      · exact hnot ((hout.reaches f).mp hold)
      · exact hfu rfl
  · rw [(hwalk []).1, hp.1]
    rfl
  · intro j
    show (if u = t ∧ j = i then e else m₁.mem u j) = words j
    rw [if_neg (fun h => htu h.1.symm), hu]
  · intro j s
    rw [(hwalk (j :: s)).1, hp.1, Radix.walk_cons, hu]
    -- below the words of the new table the memory is the old one
    rcases hwords j with hnone | ⟨-, t0, ht0, hsame⟩
    · rw [below_none hnone, hnone]
      rfl
    unfold below Radix.below
    rw [hsame]
    cases hc : child (4 - p.length - 1) (m.mem t0 j) with
    | none => rfl
    | some v =>
      have hv : m.tableAt r (p ++ i :: [j]) = some v := by
        rw [hO.tableAt_slot]
        unfold tableBelow Radix.tableBelow
        simp only [ht0, Option.bind_some, Radix.tableAt_cons, hc, Radix.tableAt_nil]
      have hbelow := hout.below hO.root hv s
      have hlen : 4 - (p ++ i :: [j]).length = 4 - p.length - 1 - 1 := by
        simp only [List.length_append, List.length_cons, List.length_nil]
        omega
      rw [hlen] at hbelow
      simp only [Option.elim_some]
      rw [hbelow]

/-! ## `ensureEntry` -/

/-- The bits of an entry for a new table. -/
def freshBits : Entry := present ||| readWrite ||| userSuper

section

theorem frameOf_fresh (u : Frame) : frameOf (addrOf u ||| freshBits) = u :=
  frameOf_addrOf_or u (by decide)

theorem present_fresh (u : Frame) : has (addrOf u ||| freshBits) present := by
  rw [has_or, Bool.or_eq_true]
  exact .inr (by decide)

theorem large_fresh (u : Frame) : has (addrOf u ||| freshBits) largePage = false := by
  rw [has_largePage]
  simp [addrOf, freshBits, present, readWrite, userSuper]

theorem private_fresh (u : Frame) : has (addrOf u ||| freshBits) privateTable = false := by
  rw [has_privateTable]
  simp [addrOf, freshBits, present, readWrite, userSuper]

end

/-- A table of zeroes is what `AllocTable` returns. -/
theorem linked_zero (m : Machine) (u : Frame) (pmm : Pmm.State) (s : Slot) (e : Entry) :
    (m.withTable u pmm).setEntry s e = m.linked u pmm (fun _ => 0#64) s e := by
  have hmem : ((m.withTable u pmm).setFrame u fun _ => 0#64) = m.withTable u pmm := by
    unfold withTable setFrame
    congr 1
    funext g j
    by_cases h : g = u <;> simp [h]
  unfold linked
  rw [hmem]

/-- What `ensureEntry` leaves at the entry: the old table with more
permissions, or a new empty table without the private-table bit. -/
inductive Ensured (m : Machine) (t : Frame) (i : Index) (promote : Entry) : Machine → Prop
  | promoted (hp : has (m.mem t i) present = true) :
      Ensured m t i promote (m.setEntry ⟨t, i⟩ (m.mem t i ||| promote))
  | installed (hp : has (m.mem t i) present = false) (u : Frame) (pmm : Pmm.State)
      (hgrant : TableTaken m.pmm u pmm) :
      Ensured m t i promote (m.linked u pmm (fun _ => 0#64) ⟨t, i⟩ (addrOf u ||| freshBits))

theorem ensureEntry_spec (hS : Space R m) (promote : Entry) :
    Cmd.Ends (ensureEntry ⟨t, i⟩ freshBits promote) m (fun _ m' => Ensured m t i promote m')
      (fun m' => m' = m.tableFailed ∧ has (m.mem t i) present = false) := by
  apply ends_read_bind
  show Cmd.Ends (if !has (m.mem t i) present then _ else _) m _ _
  cases hp : has (m.mem t i) present with
  | false =>
    apply ends_bind
    refine (allocTable_spec hS.frames).mono ?_ ?_
    · rintro u m₁ ⟨pmm, hgrant, rfl⟩
      apply ends_update
      rw [linked_zero]
      exact .installed hp u pmm hgrant
    · intro m₁ h
      exact ⟨h.1, rfl⟩
  | true => exact .promoted hp

/-- The entry of a root is no large page. -/
theorem Space.top_of_nil (hS : Space R m) (hO : Owned R m r p t)
    (hscope : R.InScope (p ++ [i])) (hp : has (m.mem t i) present) (hnil : p = []) :
    has (m.mem t i) largePage = false := by
  subst hnil
  have hrt : r = t := Option.some.inj hO.reached
  subst hrt
  exact hS.top r hO.proc i (hscope i rfl) hp

section

variable (hS : Space R m) (hO : Owned R m r p t) (hlen : p.length ≤ 2)

include hS hO hlen

/-- An empty table is entered like every new table. -/
theorem link_fresh (hgrant : TableTaken m.pmm u pmm) :
    Links R m r p i u (addrOf u ||| freshBits) (fun _ => 0#64)
      (m.linked u pmm (fun _ => 0#64) ⟨t, i⟩ (addrOf u ||| freshBits)) := by
  refine Change.link hS hO hgrant ?_ (fun j => .inl (child_zero _)) (fun _ _ => large_fresh u)
  rw [child_eq_some (by omega) (present_fresh u) (.inr (large_fresh u)), frameOf_fresh]

/-- Both outcomes of `ensureEntry` are changes at the entry only. -/
theorem Ensured.change (hscope : R.InScope (p ++ [i])) {promote : Entry}
    (hpromote : Promotion promote) (h : Ensured m t i promote m') : Change R m r (p ++ [i]) m' := by
  cases h with
  | promoted hp =>
    refine .flags hS hO (child_promote hpromote _ _) ?_ ?_
    · rw [private_promote hpromote]
      exact id
    · intro hnil _
      rw [large_promote hpromote]
      exact hS.top_of_nil hO hscope hp hnil
  | installed hp u pmm hgrant =>
    exact (link_fresh hS hO hlen hgrant).change

/-! ## `cloneTableIfNeeded` -/

/-- What `cloneTableIfNeeded` does at a present table entry. -/
inductive Cloned (m : Machine) (t : Frame) (i : Index) : Frame → Machine → Prop
  | kept (hpriv : has (m.mem t i) privateTable = true) : Cloned m t i (frameOf (m.mem t i)) m
  | copied (hpriv : has (m.mem t i) privateTable = false) (u : Frame) (pmm : Pmm.State)
      (hgrant : TableTaken m.pmm u pmm) :
      Cloned m t i u
        (m.linked u pmm (fun j => m.mem (frameOf (m.mem t i)) j &&& ~~~ privateTable) ⟨t, i⟩
          (cloneEntry u (m.mem t i)))

theorem cloneTableIfNeeded_spec (hp : has (m.mem t i) present)
    (hl : has (m.mem t i) largePage = false) : Cmd.Ends (cloneTableIfNeeded ⟨t, i⟩) m (Cloned m t i)
      (fun m' => m' = m.tableFailed ∧ has (m.mem t i) privateTable = false ∧
        takeTable m.pmm = none) := by
  have hchild : child (4 - p.length) (m.mem t i) = some (frameOf (m.mem t i)) :=
    child_eq_some (by omega) hp (.inr hl)
  have hreach : R.Reaches m (frameOf (m.mem t i)) := ⟨r, p ++ [i], hO.root, hO.tableAt_child hchild⟩
  apply ends_read_bind
  apply ends_read_bind
  show Cmd.Ends (if !has (m.mem t i) present || has (m.mem t i) largePage then _ else _) m _ _
  rw [hp, hl]
  show Cmd.Ends (if !m.heapInitialized || has (m.mem t i) privateTable then _ else _) m _ _
  rw [hS.heap]
  cases hpriv : has (m.mem t i) privateTable with
  | true =>
    show Cmd.Ends (nonNull (frameOf (m.mem t i))) m _ _
    unfold nonNull
    rw [if_neg (hS.backed _ hreach).nonzero]
    exact .kept hpriv
  | false =>
    apply ends_bind
    refine (allocTable_spec hS.frames).mono ?_ ?_
    · rintro u m₁ ⟨pmm, hgrant, rfl⟩
      apply ends_update_bind
      apply ends_update_bind
      apply ends_pure
      have hold : (m.withTable u pmm).mem (frameOf (m.mem t i)) = m.mem (frameOf (m.mem t i)) := by
        funext j
        exact (Outside.withTable hS hgrant).agree _ j hreach
      show Cloned m t i u (((m.withTable u pmm).setFrame u fun j =>
        (m.withTable u pmm).mem (frameOf (m.mem t i)) j &&& ~~~ privateTable).setEntry ⟨t, i⟩
          (cloneEntry u (m.mem t i)))
      rw [hold]
      exact .copied hpriv u pmm hgrant
    · intro m₁ h
      exact ⟨h.1, rfl, h.2⟩

/-- The new table of a clone is entered like every new table. -/
theorem link_clone (hp : has (m.mem t i) present)
    (hl : has (m.mem t i) largePage = false) (hgrant : TableTaken m.pmm u pmm) :
    Links R m r p i u (cloneEntry u (m.mem t i))
      (fun j => m.mem (frameOf (m.mem t i)) j &&& ~~~ privateTable)
      (m.linked u pmm (fun j => m.mem (frameOf (m.mem t i)) j &&& ~~~ privateTable) ⟨t, i⟩
        (cloneEntry u (m.mem t i))) := by
  have hlarge : has (cloneEntry u (m.mem t i)) largePage = false := by
    rw [large_cloneEntry, hl]
  refine Change.link hS hO hgrant ?_ ?_ (fun _ _ => hlarge)
  · rw [child_eq_some (by omega) (by rw [present_cloneEntry, hp]) (.inr hlarge),
      frameOf_cloneEntry]
  · intro j
    exact .inr ⟨has_unmark_private _, frameOf (m.mem t i),
      child_eq_some (by omega) hp (.inr hl), child_unmark _ _⟩

/-! ## Splitting a large leaf -/

omit hS hO hlen in
private theorem isLarge_iff (e : Entry) :
    e &&& (present ||| largePage) = present ||| largePage ↔ has e present ∧ has e largePage := by
  rw [has_present, has_largePage]
  exact both_bits e (show 0 < 64 by decide) (show 7 < 64 by decide)

variable {baseMask step leafBits : BitVec 64}

/-- On an entry that is not large the split functions only read. -/
theorem splitLarge_table (hp : has (m.mem t i) present) (hl : has (m.mem t i) largePage = false) :
    Cmd.Ends (splitLarge baseMask step leafBits ⟨t, i⟩) m
      (fun u m' => u = frameOf (m.mem t i) ∧ m' = m) (fun _ => False) := by
  have hreach : R.Reaches m (frameOf (m.mem t i)) :=
    ⟨r, p ++ [i], hO.root, hO.tableAt_child (child_eq_some (by omega) hp (.inr hl))⟩
  apply ends_read_bind
  show Cmd.Ends (if m.mem t i &&& (present ||| largePage) ≠ present ||| largePage then _ else _)
    m _ _
  rw [if_pos (fun h => by rw [((isLarge_iff _).mp h).2] at hl; cases hl)]
  show Cmd.Ends (nonNull (frameOf (m.mem t i))) m _ _
  unfold nonNull
  rw [if_neg (hS.backed _ hreach).nonzero]
  exact ⟨rfl, rfl⟩

omit hO hlen in
theorem splitLarge_spec {baseMask step leafBits : BitVec 64}
    (hp : has (m.mem t i) present) (hl : has (m.mem t i) largePage) :
    Cmd.Ends (splitLarge baseMask step leafBits ⟨t, i⟩) m
      (fun u m' => ∃ pmm, TableTaken m.pmm u pmm ∧
        m' = m.linked u pmm (splitLeaf baseMask step leafBits (m.mem t i)) ⟨t, i⟩
          (splitEntry u (m.mem t i))) (fun m' => m' = m.tableFailed ∧ takeTable m.pmm = none) := by
  apply ends_read_bind
  show Cmd.Ends (if m.mem t i &&& (present ||| largePage) ≠ present ||| largePage then _ else _)
    m _ _
  rw [if_neg (not_not.mpr ((isLarge_iff _).mpr ⟨hp, hl⟩))]
  apply ends_bind
  refine (allocTable_spec hS.frames).mono ?_ (fun m₁ h => h)
  rintro u m₁ ⟨pmm, hgrant, rfl⟩
  apply ends_update_bind
  apply ends_update_bind
  exact ⟨pmm, hgrant, rfl⟩

/-- The new table of a split is entered like every new table. -/
theorem link_split {leaf : Index → Entry} (hp0 : p ≠ [])
    (hleaf : Splits (4 - p.length) (m.mem t i) leaf) (hgrant : TableTaken m.pmm u pmm) :
    Links R m r p i u (splitEntry u (m.mem t i)) leaf
      (m.linked u pmm leaf ⟨t, i⟩ (splitEntry u (m.mem t i))) := by
  refine Change.link hS hO hgrant ?_ (fun j => .inl (hleaf.noChild j))
    (fun hnil _ => absurd hnil hp0)
  rw [child_eq_some (by omega) (present_splitEntry u _) (.inr (large_splitEntry u _)),
    frameOf_splitEntry]

end

/-! ## One level of the way down -/

/-- What was found at the entry `e` of level `n`, and what the entry `x` and the
table `u` below it are now. -/
inductive Opening (m m' : Machine) (n : Nat) (e promote : Entry) (u : Frame) (x : Entry) : Prop
  | owned (hp : has e present = true) (hl : has e largePage = false)
      (hpriv : has e privateTable = true) (hx : x = e ||| promote) (hu : u = frameOf e)
      (hy : ∀ j, m'.mem u j = m.mem (frameOf e) j)
      (htables : m'.trace.tables = m.trace.tables) (hpmm : m'.pmm = m.pmm)
  | cloned (hp : has e present = true) (hl : has e largePage = false)
      (hpriv : has e privateTable = false) (hx : x = cloneEntry u (e ||| promote))
      (hy : ∀ j, m'.mem u j = m.mem (frameOf e) j &&& ~~~ privateTable)
      (htables : m'.trace.tables = u :: m.trace.tables) (hgrant : TableTaken m.pmm u m'.pmm)
  | created (hp : has e present = false) (v : Frame)
      (hx : x = cloneEntry u (addrOf v ||| freshBits)) (hy : ∀ j, m'.mem u j = 0#64)
      (htables : m'.trace.tables = u :: v :: m.trace.tables)
  | split (hp : has e present = true) (hn : n ≠ 4) (hl : has e largePage = true)
      (hx : x = splitEntry u (e ||| promote)) (hy : Splits n (e ||| promote) (m'.mem u))
      (htables : m'.trace.tables = u :: m.trace.tables) (hgrant : TableTaken m.pmm u m'.pmm)

/-- The entry of the owned table `t` was opened: the table `u` below it is
owned now. -/
structure Opened (R : Family) (m : Machine) (r : Frame) (p : List Index) (t : Frame) (i : Index)
    (promote : Entry) (u : Frame) (m' : Machine) : Prop where
  change : Change R m r (p ++ [i]) m'
  owned : Owned R m' r (p ++ [i]) u
  failure : m'.trace.tableFailure = m.trace.tableFailure
  opening : ∃ x, m'.walk r (p ++ [i]) = m.walk r p ++ [x] ∧
    (∀ j s, m'.walk r (p ++ i :: j :: s) =
      m.walk r p ++ x :: m'.mem u j :: m.below (4 - p.length - 1) (m'.mem u j) s) ∧
    Opening m m' (4 - p.length) (m.mem t i) promote u x
  promoted : has (m.mem t i) present = true → has (m.mem t i) largePage = false →
    has (m.mem t i) privateTable = true → m' = m.setEntry ⟨t, i⟩ (m.mem t i ||| promote)

/-- The call returned early: an allocation failed, with the entry as it was or
as `ensureEntry` left it.  At a present entry it was the clone or the split
that failed. -/
inductive Stopped (m : Machine) (t : Frame) (i : Index) (promote : Entry) : Machine → Prop
  | absent (hp : has (m.mem t i) present = false) : Stopped m t i promote m.tableFailed
  | ensured {m₁ : Machine} (hens : Ensured m t i promote m₁)
      (hwhy : has (m.mem t i) present = true → takeTable m.pmm = none ∧
        (has (m.mem t i) largePage = false → has (m.mem t i) privateTable = false)) :
      Stopped m t i promote m₁.tableFailed

/-- The entry names the opened table. -/
theorem Opened.entry {promote : Entry} (h : Opened R m r p t i promote u m')
    (hO : Owned R m r p t) (hp0 : p ≠ []) :
    Owned R m' r p t ∧ has (m'.mem t i) present ∧ has (m'.mem t i) largePage = false ∧
      frameOf (m'.mem t i) = u := by
  have hO' : Owned R m' r p t := h.change.owned hO (not_below_slot p i)
  obtain ⟨hp, hl, hu⟩ := of_child_eq_some (hO'.child_eq h.owned.reached)
  exact ⟨hO', hp, hl.resolve_left (level_ne_top hp0), hu⟩

section

variable (hS : Space R m) (hO : Owned R m r p t) (hlen : p.length ≤ 2)
  (hscope : R.InScope (p ++ [i])) {promote : Entry} (hpromote : Promotion promote)

include hS hO hlen hscope hpromote

omit hlen hscope in
/-- The walks after promoting a present entry. -/
theorem walk_promoted (htop : p = [] → has (m.mem t i) largePage = false) (s : List Index) :
    (m.setEntry ⟨t, i⟩ (m.mem t i ||| promote)).walk r (p ++ i :: s) =
        m.walk r p ++ (m.mem t i ||| promote) :: m.below (4 - p.length) (m.mem t i) s ∧
      (m.setEntry ⟨t, i⟩ (m.mem t i ||| promote)).tableAt r (p ++ i :: s) =
        m.tableAt r (p ++ i :: s) := by
  refine (hS.setEntry_flags hO (child_promote hpromote _ _) ?_ ?_).2.2 s
  · rw [private_promote hpromote]
    exact id
  · intro hnil _
    rw [large_promote hpromote]
    exact htop hnil

omit hS hlen hpromote in
/-- A step at the entry and a new table linked there after it open the entry. -/
private theorem Links.opened {m₁ : Machine} {x : Entry} {words : Index → BitVec 64}
    (hchange : Change R m r (p ++ [i]) m₁) (hlink : Links R m₁ r p i u x words m')
    (hpriv : has x privateTable) (hbelow : ∀ j s, m₁.below (4 - p.length - 1) (words j) s =
      m.below (4 - p.length - 1) (words j) s)
    (hfailure : m'.trace.tableFailure = m.trace.tableFailure)
    (hopening : Opening m m' (4 - p.length) (m.mem t i) promote u x)
    (hold : has (m.mem t i) present → has (m.mem t i) largePage = false →
      has (m.mem t i) privateTable = false) : Opened R m r p t i promote u m' := by
  have hhead : m₁.walk r p = m.walk r p :=
    (hchange.elsewhere r p hO.root (fun h => not_below_slot p i h.2)).1
  have hw := hlink.walk
  rw [hhead] at hw
  refine ⟨hchange.trans hlink.change, hO.below hscope hw hlink.table hpriv, hfailure,
    ⟨x, hw, ?_, hopening⟩, ?_⟩
  · intro j s
    rw [hlink.below, hhead, hlink.mem, hbelow]
  · intro hp hl hkept
    rw [hold hp hl] at hkept
    cases hkept

/-- Promoting and then cloning or keeping a present table entry. -/
private theorem opened_of_promoted (he : m.mem t i = e)
    (hm1 : m.setEntry ⟨t, i⟩ (e ||| promote) = m₁) (hp : has e present)
    (hl : has e largePage = false) (hC : Cloned m₁ t i u m') : Opened R m r p t i promote u m' := by
  have he1 : m₁.mem t i = e ||| promote := by rw [← hm1, setEntry_mem]
  have hchange : Change R m r (p ++ [i]) m₁ := by
    subst he hm1
    exact (Ensured.promoted hp).change hS hO hlen hscope hpromote
  have hwalk := walk_promoted hS hO hpromote (fun _ => he ▸ hl)
  rw [he, hm1] at hwalk
  have hO1 : Owned R m₁ r p t := hchange.owned hO (not_below_slot p i)
  have hchild : child (4 - p.length) e = some (frameOf e) := child_eq_some (by omega) hp (.inr hl)
  have hat : m.tableAt r (p ++ [i]) = some (frameOf e) :=
    hO.tableAt_child (by rw [he]; exact hchild)
  have hwords : ∀ j, m₁.mem (frameOf e) j = m.mem (frameOf e) j := by
    intro j
    subst hm1
    exact if_neg (fun h => hO.ne_below hS hat h.1)
  have hbelow := fun j s => below_table (m := m) (n := 4 - p.length) (by omega) hp hl j s
  cases hC with
  | kept hpriv =>
    rw [he1, private_promote hpromote] at hpriv
    rw [he1, frameOf_promote hpromote]
    have hnow : m'.walk r (p ++ [i]) = m.walk r p ++ [e ||| promote] := by
      rw [(hwalk []).1, below_nil]
    refine ⟨hchange, hO.below hscope hnow ((hwalk []).2.trans hat)
      (by rw [private_promote hpromote]; exact hpriv), by subst hm1; rfl,
      ⟨e ||| promote, hnow, ?_, ?_⟩, ?_⟩
    · intro j s
      rw [(hwalk (j :: s)).1, hbelow, hwords]
    · rw [he]
      exact .owned hp hl hpriv rfl rfl hwords (by subst hm1; rfl) (by subst hm1; rfl)
    · intro _ _ _
      rw [he, hm1]
  | copied hpriv u pmm hgrant =>
    have hlink := link_clone hchange.space hO1 hlen (by rw [he1, present_promote hpromote, hp])
      (by rw [he1, large_promote hpromote, hl]) hgrant
    rw [he1, private_promote hpromote] at hpriv
    simp only [he1, frameOf_promote hpromote, hwords] at hlink ⊢
    refine hlink.opened hO hscope hchange (private_cloneEntry u _) ?_ (by subst hm1; rfl) ?_
      fun _ _ => he ▸ hpriv
    · -- the memory below the words of the old table has not changed
      intro j s
      have h1 := hO1.walk_slot (i := i) (j :: s)
      rw [(hwalk (j :: s)).1,
        (hchange.elsewhere r p hO.root fun h => not_below_slot p i h.2).1, he1,
        hbelow] at h1
      have h2 := List.append_cancel_left h1
      unfold below Radix.below at h2 ⊢
      rw [child_promote hpromote, hchild] at h2
      simp only [Option.elim_some, Radix.walk_cons, hwords, List.cons.injEq, true_and] at h2
      rw [child_unmark]
      exact h2.symm
    · rw [he]
      exact .cloned hp hl hpriv rfl hlink.mem (by subst hm1; rfl) (by subst hm1; exact hgrant)

omit hpromote in
/-- Installing an empty table and cloning it. -/
private theorem opened_of_installed {v : Frame} {pmm : Pmm.State} {m₁ : Machine}
    (hm1 : m.linked v pmm (fun _ => 0#64) ⟨t, i⟩ (addrOf v ||| freshBits) = m₁)
    (hp : has (m.mem t i) present = false) (hgrant : TableTaken m.pmm v pmm)
    (hC : Cloned m₁ t i u m') : Opened R m r p t i promote u m' := by
  have hfirst := link_fresh (i := i) hS hO hlen hgrant
  have he1 : m₁.mem t i = addrOf v ||| freshBits := by rw [← hm1, linked, setEntry_mem]
  rw [hm1] at hfirst
  have hO1 : Owned R m₁ r p t := hfirst.change.owned hO (not_below_slot p i)
  cases hC with
  | kept hpriv =>
    rw [he1, private_fresh] at hpriv
    cases hpriv
  | copied hpriv u pmm1 hgrant1 =>
    have hlink := link_clone hfirst.change.space hO1 hlen
      (by rw [he1]; exact present_fresh v) (by rw [he1]; exact large_fresh v) hgrant1
    simp only [he1, frameOf_fresh, hfirst.mem, BitVec.zero_and] at hlink ⊢
    refine hlink.opened hO hscope hfirst.change (private_cloneEntry u _) ?_
      (by subst hm1; rfl) (.created hp v rfl hlink.mem (by subst hm1; rfl)) ?_
    · intro j s
      rw [below_none (child_zero _), below_none (child_zero _)]
    · rw [hp]
      nofun

/-- Promoting a large leaf and splitting it. -/
private theorem opened_of_split (he : m.mem t i = e)
    (hm1 : m.setEntry ⟨t, i⟩ (e ||| promote) = m₁) {leaf : Index → Entry}
    (hp : has e present) (hl : has e largePage) (hp0 : p ≠ [])
    (hleaf : Splits (4 - p.length) (e ||| promote) leaf) (hgrant : TableTaken m.pmm u pmm) :
    Opened R m r p t i promote u (m₁.linked u pmm leaf ⟨t, i⟩ (splitEntry u (e ||| promote))) := by
  have he1 : m₁.mem t i = e ||| promote := by rw [← hm1, setEntry_mem]
  have hchange : Change R m r (p ++ [i]) m₁ := by
    subst he hm1
    exact (Ensured.promoted hp).change hS hO hlen hscope hpromote
  have hlink := link_split hchange.space
    (hchange.owned hO (not_below_slot p i)) hlen hp0 (by rw [he1]; exact hleaf)
    (by subst hm1; exact hgrant)
  rw [he1] at hlink
  refine hlink.opened hO hscope hchange (private_splitEntry u _) ?_ (by subst hm1; rfl) ?_ ?_
  · intro j s
    rw [below_none (hleaf.noChild j), below_none (hleaf.noChild j)]
  · rw [he]
    exact .split hp (level_ne_top hp0) hl rfl (by
      rw [show Machine.mem _ u = leaf from funext hlink.mem]; exact hleaf)
      (by subst hm1; rfl) hgrant
  · rw [he, hl]
    nofun

/-- Cloning after `ensureEntry`, at an entry that is no large page. -/
private theorem clone_after_ensure
    (hl : has (m.mem t i) present → has (m.mem t i) largePage = false)
    (hens : Ensured m t i promote m₁) : has (m₁.mem t i) largePage = false ∧
      Cmd.Ends (cloneTableIfNeeded ⟨t, i⟩) m₁ (Opened R m r p t i promote)
        (Stopped m t i promote) := by
  have hchange := hens.change hS hO hlen hscope hpromote
  have hO1 : Owned R m₁ r p t := hchange.owned hO (not_below_slot p i)
  have hentry : has (m₁.mem t i) present ∧ has (m₁.mem t i) largePage = false := by
    cases hens with
    | promoted hp =>
      rw [setEntry_mem, present_promote hpromote, large_promote hpromote]
      exact ⟨hp, hl hp⟩
    | installed hp v pmm hgrant =>
      rw [linked, setEntry_mem]
      exact ⟨present_fresh v, large_fresh v⟩
  refine ⟨hentry.2, (cloneTableIfNeeded_spec hchange.space hO1 hlen hentry.1 hentry.2).mono ?_ ?_⟩
  · intro u m2 hC
    cases hens with
    | promoted hp => exact opened_of_promoted hS hO hlen hscope hpromote rfl rfl hp (hl hp) hC
    | installed hp v pmm hgrant => exact opened_of_installed hS hO hlen hscope rfl hp hgrant hC
  · rintro _ ⟨rfl, hpriv, hnone⟩
    refine .ensured hens (fun hp => ?_)
    cases hens with
    | promoted _ =>
      rw [setEntry_mem, private_promote hpromote] at hpriv
      exact ⟨hnone, fun _ => hpriv⟩
    | installed hp' _ _ _ =>
      rw [hp] at hp'
      cases hp'

/-- The top level of the way down: ensure, then clone. -/
theorem openTable_spec (hl : has (m.mem t i) present → has (m.mem t i) largePage = false) :
    Cmd.Ends (ensureEntry ⟨t, i⟩ freshBits promote >>= fun _ => cloneTableIfNeeded ⟨t, i⟩) m
      (Opened R m r p t i promote) (Stopped m t i promote) := by
  apply ends_bind
  refine (ensureEntry_spec hS promote).mono ?_ (fun m₁ h => h.1 ▸ .absent h.2)
  intro _ m₁ hens
  exact (clone_after_ensure hS hO hlen hscope hpromote hl hens).2

/-- **One level of the way down**, for the levels that may hold large pages. -/
theorem openEntry_spec (hp0 : p ≠ [])
    (hsplits : ∀ e, has e present → Splits (4 - p.length) e (splitLeaf baseMask step leafBits e)) :
    Cmd.Ends (openEntry (splitLarge baseMask step leafBits) freshBits promote ⟨t, i⟩) m
      (Opened R m r p t i promote) (Stopped m t i promote) := by
  apply ends_bind
  refine (ensureEntry_spec hS promote).mono ?_ (fun m₁ h => h.1 ▸ .absent h.2)
  intro _ m₁ hens
  apply ends_read_bind
  show Cmd.Ends (if !has (m₁.mem t i) largePage then _ else _) m₁ _ _
  by_cases hlarge : has (m.mem t i) present ∧ has (m.mem t i) largePage
  · obtain ⟨hp, hl⟩ := hlarge
    cases hens with
    | installed hp' v pmm hgrant =>
      rw [hp] at hp'
      cases hp'
    | promoted _ =>
      have hens : Ensured m t i promote (m.setEntry ⟨t, i⟩ (m.mem t i ||| promote)) := .promoted hp
      have hp1 : has (m.mem t i ||| promote) present := by
        rw [present_promote hpromote, hp]
      have hl1 : has (m.mem t i ||| promote) largePage := by
        rw [large_promote hpromote, hl]
      rw [setEntry_mem, hl1]
      refine (splitLarge_spec (hens.change hS hO hlen hscope hpromote).space
        (by rw [setEntry_mem]; exact hp1) (by rw [setEntry_mem]; exact hl1)).mono ?_
        (fun m2 h => h.1 ▸ .ensured hens (fun _ => ⟨h.2, fun hl' => by rw [hl] at hl'; cases hl'⟩))
      rintro u m2 ⟨pmm, hgrant, rfl⟩
      rw [setEntry_mem]
      exact opened_of_split hS hO hlen hscope hpromote rfl rfl hp hl hp0 (hsplits _ hp1) hgrant
  · have hl : has (m.mem t i) present → has (m.mem t i) largePage = false := by
      intro hp
      cases hl : has (m.mem t i) largePage with
      | false => rfl
      | true => exact absurd ⟨hp, hl⟩ hlarge
    obtain ⟨hl1, hclone⟩ := clone_after_ensure hS hO hlen hscope hpromote hl hens
    rw [hl1]
    apply ends_bind
    refine hclone.mono ?_ (fun m2 h => h)
    intro u m2 hopen
    -- the entry is a table now, so the split only reads it
    obtain ⟨hO2, hp2, hl2, hf2⟩ := hopen.entry hO hp0
    refine (splitLarge_table hopen.change.space hO2 hlen hp2 hl2).mono ?_ (fun _ h => False.elim h)
    rintro u' m3 ⟨rfl, rfl⟩
    rw [hf2]
    exact hopen

end

/-! ## Opening without promotion -/

theorem setEntry_self (m : Machine) (t : Frame) (i : Index) :
    m.setEntry ⟨t, i⟩ (m.mem t i ||| 0#64) = m := by
  unfold setEntry
  congr 1
  funext f j
  by_cases h : f = t ∧ j = i
  · simp [h]
  · exact if_neg h

theorem promotion_zero : Promotion 0#64 := BitVec.zero_and

section

variable (hS : Space R m) (hO : Owned R m r p t) (hlen : p.length ≤ 2)
  (hscope : R.InScope (p ++ [i]))

include hS hO hlen hscope

/-- Cloning a present entry opens it. -/
theorem Cloned.opened (hp : has (m.mem t i) present)
    (hl : has (m.mem t i) largePage = false) (hC : Cloned m t i u m') :
    Opened R m r p t i 0#64 u m' := by
  rw [← setEntry_self m t i] at hC
  exact opened_of_promoted hS hO hlen hscope promotion_zero rfl rfl hp hl hC

/-- **One level of the way down** for the callers that create nothing. -/
theorem descend_spec (hp0 : p ≠ [])
    (hsplits : ∀ e, has e present → Splits (4 - p.length) e (splitLeaf baseMask step leafBits e)) :
    Cmd.Ends (descend (splitLarge baseMask step leafBits) ⟨t, i⟩) m
      (fun u m' => has (m.mem t i) present ∧ Opened R m r p t i 0#64 u m')
      (fun m' => has (m.mem t i) present = false ∧ m' = m ∨ m' = m.tableFailed) := by
  apply ends_read_bind
  apply ends_require_bind
  · intro hp
    show Cmd.Ends (if !has (m.mem t i) largePage then _ else _) m _ _
    cases hl : has (m.mem t i) largePage with
    | false =>
      apply ends_bind
      refine (cloneTableIfNeeded_spec hS hO hlen hp hl).mono ?_ (fun m₁ h => .inr h.1)
      intro u m₁ hC
      have hopen := hC.opened hS hO hlen hscope hp hl
      obtain ⟨-, -, hl1, hf1⟩ := hopen.entry hO hp0
      apply ends_read_bind
      show Cmd.Ends (if has (m₁.mem t i) largePage then _ else _) m₁ _ _
      rw [hl1]
      exact ⟨hp, hf1.symm ▸ hopen⟩
    | true =>
      apply ends_read_bind
      show Cmd.Ends (if has (m.mem t i) largePage then _ else _) m _ _
      rw [hl]
      apply ends_bind
      refine (splitLarge_spec hS hp hl).mono ?_ (fun m₁ h => .inr h.1)
      rintro u m₁ ⟨pmm, hgrant, rfl⟩
      have hopen : Opened R m r p t i 0#64 u (m.linked u pmm
          (splitLeaf baseMask step leafBits (m.mem t i)) ⟨t, i⟩ (splitEntry u (m.mem t i))) := by
        have h := opened_of_split hS hO hlen hscope promotion_zero rfl rfl hp hl hp0
          (hsplits _ (by rw [present_promote promotion_zero]; exact hp)) hgrant
        rw [setEntry_self, BitVec.or_zero] at h
        exact h
      exact ⟨hp, (hopen.entry hO hp0).2.2.2.symm ▸ hopen⟩
  · intro hp
    exact .inl ⟨hp, rfl⟩

end

end InstantOS.Vmm

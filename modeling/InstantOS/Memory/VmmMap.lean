import InstantOS.Memory.VmmOpen

/-!
# Mapping and the way down to a leaf

The whole way from a root to the last table, level by level, for the two kinds
of callers: `MapPageInto` creates what is missing and promotes permissions,
`unmapLeaf` stops at what is missing.  The results are stated as the chain of
opened entries, and the effect on pages is derived from the chain.
-/

namespace InstantOS.Vmm

open Machine List

variable {R : Family} {m m' : Machine} {r t u : Frame} {p : List Index} {i : Index}

/-! ## Pages under an opened entry -/

variable {promote : Entry}

/-- Promotion does not move a page. -/
theorem pageOf_promote_frame (hpromote : Promotion promote) (i : Index)
    (s : List Index) (e : Entry) :
    (pageOf (i :: s) [e ||| promote]).map Page.frame = (pageOf (i :: s) [e]).map Page.frame := by
  rw [pageOf_leaf, pageOf_leaf, present_promote hpromote, frameOf_promote hpromote]
  split
  · rfl
  · rfl

/-- The marker of private tables makes no difference to a page. -/
theorem pageOf_unmark (j : Index) (s : List Index) (e : Entry) (w : List Entry) :
    pageOf (j :: s) ((e &&& ~~~ privateTable) :: w) = pageOf (j :: s) (e :: w) := by
  cases w with
  | nil =>
    rw [pageOf_leaf, pageOf_leaf, has_unmark e (by decide), frameOf_unmark, leafFlags_unmark]
  | cons x w => rfl

section

variable {promote : Entry}

theorem Owned.walk_length_eq (hO : Owned R m r p t) : (m.walk r p).length = p.length :=
  Radix.walk_length hO.reached

/-- The page below an entry, before anything happens. -/
theorem Owned.pageAt_slot (hO : Owned R m r p t) (s : List Index) :
    m.pageAt r (p ++ i :: s) =
      pageOf (i :: s) (m.mem t i :: m.below (4 - p.length) (m.mem t i) s) := by
  unfold Machine.pageAt
  rw [hO.walk_slot, pageOf_append hO.walk_length_eq]

/-- Below the entry a large leaf hands the promoted permissions to all its
pages, and the other pages are kept. -/
def Promotes (m : Machine) (r : Frame) (p : List Index) (t : Frame) (i : Index) (promote : Entry)
    (m' : Machine) : Prop :=
  ∀ j s, s.length = 2 - p.length → m'.pageAt r (p ++ i :: j :: s) =
    if has (m.mem t i) present ∧ 4 - p.length ≠ 4 ∧ has (m.mem t i) largePage = true then
      pageOf (i :: j :: s) [m.mem t i ||| promote]
    else m.pageAt r (p ++ i :: j :: s)

/-- **Opening an entry keeps every page**, but for the promotion. -/
theorem Opened.promotes (hO : Owned R m r p t) (hlen : p.length ≤ 2)
    (h : Opened R m r p t i promote u m') : Promotes m r p t i promote m' := by
  intro j s hs
  obtain ⟨x, -, hwalk, hopening⟩ := h.opening
  have hnew : m'.pageAt r (p ++ i :: j :: s) =
      pageOf (j :: s) (m'.mem u j :: m.below (4 - p.length - 1) (m'.mem u j) s) := by
    unfold Machine.pageAt
    rw [hwalk, pageOf_append hO.walk_length_eq]
    rfl
  rw [hnew, hO.pageAt_slot]
  cases hopening with
  | owned hp hl _ _ _ hy _ _ =>
    rw [if_neg (by simp [hl]), below_table (by omega) hp hl, hy]
    rfl
  | cloned hp hl _ _ hy _ _ =>
    rw [if_neg (by simp [hl]), below_table (by omega) hp hl, hy, pageOf_unmark, pageOf_table,
      below_congr (child_unmark _ _)]
  | created hp _ _ hy _ =>
    rw [if_neg (by simp [hp]), below_none (child_eq_none_of_absent hp), hy,
      below_none (child_zero _), pageOf_leaf, pageOf_leaf, hp, has_zero]
    rfl
  | split hp hn hl _ hy _ _ =>
    rw [if_pos ⟨hp, hn, hl⟩, below_none (hy.noChild j)]
    exact hy.page i j s (by omega)

/-- The same for an entry that was only ensured. -/
theorem Ensured.promotes (hS : Space R m) (hO : Owned R m r p t) (hlen : p.length ≤ 2)
    (hscope : R.InScope (p ++ [i])) (hpromote : Promotion promote)
    (h : Ensured m t i promote m') : Promotes m r p t i promote m' := by
  intro j s _
  rw [hO.pageAt_slot]
  cases h with
  | promoted hp =>
    have hnew : (m.setEntry ⟨t, i⟩ (m.mem t i ||| promote)).pageAt r (p ++ i :: j :: s) =
        pageOf (i :: j :: s)
          ((m.mem t i ||| promote) :: m.below (4 - p.length) (m.mem t i) (j :: s)) := by
      unfold Machine.pageAt
      rw [(walk_promoted hS hO hpromote (hS.top_of_nil hO hscope hp) (j :: s)).1,
        pageOf_append hO.walk_length_eq]
    rw [hnew]
    by_cases hlarge : 4 - p.length ≠ 4 ∧ has (m.mem t i) largePage
    · rw [if_pos ⟨hp, hlarge⟩, below_none (child_eq_none_of_large hlarge.1 hlarge.2)]
    rw [if_neg (fun h => hlarge h.2)]
    have htable : child (4 - p.length) (m.mem t i) = some (frameOf (m.mem t i)) := by
      apply child_eq_some (by omega) hp
      cases hl : has (m.mem t i) largePage with
      | false => exact .inr rfl
      | true => exact .inl (not_not.mp fun hn => hlarge ⟨hn, hl⟩)
    unfold below Radix.below
    rw [htable]
    rfl
  | installed hp v pmm hgrant =>
    have hlink := link_fresh (i := i) hS hO hlen hgrant
    have hnew : (m.linked v pmm (fun _ => 0#64) ⟨t, i⟩ (addrOf v ||| freshBits)).pageAt r
        (p ++ i :: j :: s) = none := by
      unfold Machine.pageAt
      rw [hlink.below, pageOf_append hO.walk_length_eq, below_none (child_zero _)]
      rfl
    rw [if_neg (by simp [hp]), hnew, below_none (child_eq_none_of_absent hp), pageOf_leaf, hp]
    rfl

end

/-- Every page of every address space has the frame it had. -/
def SameFrames (R : Family) (m m' : Machine) : Prop :=
  ∀ r' q, R.Root r' → q.length = 4 →
    (m'.pageAt r' q).map Page.frame = (m.pageAt r' q).map Page.frame

theorem SameFrames.trans {m'' : Machine} (h : SameFrames R m m') (h' : SameFrames R m' m'') :
    SameFrames R m m'' :=
  fun r' q hr' hq => (h' r' q hr' hq).trans (h r' q hr' hq)

variable {q : List Index}

/-- A page that passes the slot `i` of a table of level 2 or more. -/
theorem split_path (hlen : p.length ≤ 2) (hq : q.length = 4)
    (hw : p ++ [i] <+: q) : ∃ j s, q = p ++ i :: j :: s ∧ s.length = 2 - p.length := by
  obtain ⟨s, rfl⟩ := hw
  simp only [length_append, length_cons, length_nil] at hq
  cases s with
  | nil =>
    simp only [length_nil] at hq
    omega
  | cons j s =>
    simp only [length_cons] at hq
    exact ⟨j, s, by simp, by omega⟩

/-- A change whose only effect on pages is the promotion of a large leaf moves
no page. -/
theorem Promotes.sameFrames (h : Promotes m r p t i promote m')
    (hpromote : Promotion promote) (hO : Owned R m r p t) (hlen : p.length ≤ 2)
    (hchange : Change R m r (p ++ [i]) m') : SameFrames R m m' := by
  intro r' q hr' hq
  by_cases hw : r' = r ∧ p ++ [i] <+: q
  · obtain ⟨rfl, hw⟩ := hw
    obtain ⟨j, s, rfl, hs⟩ := split_path hlen hq hw
    rw [h j s hs]
    split
    · rename_i hlarge
      rw [pageOf_promote_frame hpromote, hO.pageAt_slot,
        below_none (child_eq_none_of_large hlarge.2.1 hlarge.2.2)]
    · rfl
  · rw [pageAt_eq (hchange.elsewhere r' q hr' hw).1]

theorem SameFrames.tableFailed : SameFrames R m m.tableFailed := fun _ _ _ _ => rfl

theorem Opened.sameFrames (hpromote : Promotion promote)
    (hO : Owned R m r p t) (hlen : p.length ≤ 2) (h : Opened R m r p t i promote u m') :
    SameFrames R m m' :=
  (h.promotes hO hlen).sameFrames hpromote hO hlen h.change

/-- An early return leaves a change at the entry, moves no page and is
recorded. -/
theorem Stopped.spec (hS : Space R m) (hO : Owned R m r p t)
    (hlen : p.length ≤ 2) (hscope : R.InScope (p ++ [i])) (hpromote : Promotion promote)
    (h : Stopped m t i promote m') :
    Change R m r (p ++ [i]) m' ∧ SameFrames R m m' ∧ m'.trace.tableFailure := by
  cases h with
  | absent _ => exact ⟨.tableFailed hS, .tableFailed, rfl⟩
  | ensured hens _ =>
    have hchange := hens.change hS hO hlen hscope hpromote
    refine ⟨hchange.trans (.tableFailed hchange.space), ?_, rfl⟩
    refine .trans ?_ SameFrames.tableFailed
    exact (hens.promotes hS hO hlen hscope hpromote).sameFrames hpromote hO hlen hchange

/-! ## The whole way down -/

/-- The entries along an index list were opened one after the other, from the
root `r` to the table `t`. -/
inductive Way (R : Family) (m : Machine) (r : Frame) (promote : Entry) :
    List Index → Frame → Machine → Prop
  | root : Way R m r promote [] r m
  | step {p : List Index} {t u : Frame} {i : Index} {m₁ m₂ : Machine}
      (way : Way R m r promote p t m₁) (opened : Opened R m₁ r p t i promote u m₂) :
      Way R m r promote (p ++ [i]) u m₂

/-- The same, with every entry present before it was opened, so that no table
was created. -/
inductive Descent (R : Family) (m : Machine) (r : Frame) (promote : Entry) :
    List Index → Frame → Machine → Prop
  | root : Descent R m r promote [] r m
  | step {p : List Index} {t u : Frame} {i : Index} {m₁ m₂ : Machine}
      (down : Descent R m r promote p t m₁) (hp : has (m₁.mem t i) present = true)
      (opened : Opened R m₁ r p t i promote u m₂) : Descent R m r promote (p ++ [i]) u m₂

theorem Descent.way (h : Descent R m r promote p t m') : Way R m r promote p t m' := by
  induction h with
  | root => exact .root
  | step _ _ opened ih => exact .step ih opened

section

variable {promote : Entry} (hS : Space R m) (hr : r ∈ R.procs) (hpromote : Promotion promote)

include hS hr in
theorem Way.owned (h : Way R m r promote p t m') : Owned R m' r p t ∧ Space R m' := by
  cases h with
  | root => exact ⟨.ofRoot hr, hS⟩
  | step way opened => exact ⟨opened.owned, opened.change.space⟩

theorem Way.eq_of_nil (h : Way R m r promote p t m') (hp : p = []) : m' = m := by
  cases h with
  | root => rfl
  | step _ _ => simp at hp

include hS in
/-- All changes lie below the first index. -/
theorem Way.change (h : Way R m r promote p t m') : Change R m r (p.take 1) m' := by
  induction h with
  | root => exact .refl hS
  | @step p t u i m₁ m₂ way opened ih =>
    have hstep := opened.change.widen ( take_prefix 1 (p ++ [i]))
    cases p with
    | nil =>
      -- the first entry: nothing was opened before it
      rw [way.eq_of_nil rfl] at hstep
      exact hstep
    | cons j p => exact ih.trans hstep

include hS hr hpromote in
theorem Way.sameFrames (h : Way R m r promote p t m') (hlen : p.length ≤ 3) :
    SameFrames R m m' := by
  induction h with
  | root => exact fun _ _ _ _ => rfl
  | step way opened ih =>
    simp only [length_append, length_cons] at hlen
    have hO := (way.owned hS hr).1
    exact (ih (by omega)).trans (opened.sameFrames hpromote hO (by omega))

theorem Way.failure (h : Way R m r promote p t m') :
    m'.trace.tableFailure = m.trace.tableFailure := by
  induction h with
  | root => rfl
  | step way opened ih => exact opened.failure.trans ih

end

/-- The indices above the leaf of `va`. -/
def upperPath (va : BitVec 64) : List Index := [pml4Index va, pdptIndex va, pdIndex va]

/-- The index lists that the way to `va` passes. -/
theorem onPath (va : BitVec 64) : [pml4Index va] <+: path va ∧
    [pml4Index va, pdptIndex va] <+: path va ∧ upperPath va <+: path va :=
  ⟨⟨_, rfl⟩, ⟨_, rfl⟩, ⟨_, rfl⟩⟩

variable {va : BitVec 64}

theorem onUpperPath (hlen : p.length ≤ 2) (h : p ++ [i] <+: path va) :
    p ++ [i] <+: upperPath va := by
  refine prefix_of_prefix_length_le h (onPath va).2.2 ?_
  simp only [length_append, length_cons, upperPath]
  omega

theorem inScope_of_onPath (hscope : R.scope (pml4Index va)) (hq : q <+: path va) : R.InScope q := by
  intro i hi
  obtain ⟨s, hs⟩ := hq
  cases q with
  | nil => cases hi
  | cons j q =>
    simp only [path, cons_append, cons.injEq] at hs
    simp only [head?_cons, Option.mem_def, Option.some.injEq] at hi
    rw [← hi, hs.1]
    exact hscope

/-- An early return on the way to `va`. -/
def StoppedOn (R : Family) (m : Machine) (r : Frame) (va : BitVec 64) (promote : Entry)
    (m' : Machine) : Prop :=
  ∃ p t i m₁, Way R m r promote p t m₁ ∧ p.length ≤ 2 ∧ p ++ [i] <+: path va ∧
    Stopped m₁ t i promote m'

/-- `openTables` opens the three entries above the leaf of `va`. -/
theorem openTables_spec (hS : Space R m) (hr : r ∈ R.procs) (va : BitVec 64)
    (hscope : R.scope (pml4Index va)) (hpromote : Promotion promote) :
    Cmd.Ends (openTables freshBits promote r va) m
      (Way R m r promote [pml4Index va, pdptIndex va, pdIndex va])
        (StoppedOn R m r va promote) := by
  have hscopes : ∀ q, q <+: path va → R.InScope q := fun q hq => inScope_of_onPath hscope hq
  obtain ⟨hpath1, hpath2, hpath3⟩ := onPath va
  have hroot : Owned R m r [] r := .ofRoot hr
  -- level 4: `ensure` and `clone` are two statements of the source
  apply Cmd.ends_bind_left
  apply Cmd.ends_bind
  refine (openTable_spec hS hroot (by simp) (hscopes _ hpath1) hpromote
    (fun hp => hS.top r hr _ hscope hp)).mono ?_
    (fun m₁ h => ⟨[], r, pml4Index va, m, .root, by simp, hpath1, h⟩)
  intro pdpt m₁ h1
  have way1 : Way R m r promote [pml4Index va] pdpt m₁ := .step .root h1
  apply Cmd.ends_bind
  refine (openEntry_spec h1.change.space h1.owned (by simp) (hscopes _ hpath2) hpromote
    (by simp) (fun e he => splits_gib he)).mono ?_
    (fun m₂ h => ⟨_, pdpt, pdptIndex va, m₁, way1, by simp, hpath2, h⟩)
  intro pd m₂ h2
  have way2 : Way R m r promote [pml4Index va, pdptIndex va] pd m₂ := .step way1 h2
  refine (openEntry_spec h2.change.space h2.owned (by simp) (hscopes _ hpath3) hpromote
    (by simp) (fun e he => splits_mib he)).mono ?_
    (fun m3 h => ⟨_, pd, pdIndex va, m₂, way2, by simp, hpath3, h⟩)
  intro pt m3 h3
  exact .step way2 h3

/-! ## `MapPageInto` -/

/-- The call of `MapPageInto` returned early, or it stored the leaf in the last
opened table. -/
theorem mapPageInto_spec (hS : Space R m) (hr : r ∈ R.procs) (va physAddr flags : BitVec 64)
    (hscope : R.scope (pml4Index va)) :
    Cmd.Ends (mapPageInto r va physAddr flags) m (fun _ m' => ∃ pt m₁,
        Way R m r ((flags &&& userSuper) ||| (flags &&& readWrite))
          [pml4Index va, pdptIndex va, pdIndex va] pt m₁ ∧
        m' = m₁.setEntry ⟨pt, ptIndex va⟩ (leafValue physAddr flags))
      (fun m' => StoppedOn R m r va ((flags &&& userSuper) ||| (flags &&& readWrite)) m') := by
  have hne : r ≠ 0 := (hS.backed r ⟨r, [], .inr hr, rfl⟩).nonzero
  apply Cmd.ends_require_bind
  · intro _
    apply Cmd.ends_bind
    refine (openTables_spec hS hr va hscope (promotion_of_flags flags)).mono ?_ (fun m₁ h => h)
    intro pt m₁ way
    exact ⟨pt, m₁, way, rfl⟩
  · intro h
    exact absurd h (by simpa using hne)

/-- A leaf stored in the last table on the way to `va`. -/
theorem storeLeaf_spec {pt : Frame} (hS : Space R m)
    (hO : Owned R m r [pml4Index va, pdptIndex va, pdIndex va] pt) (e : Entry) :
    Change R m r (path va) (m.setEntry ⟨pt, ptIndex va⟩ e) ∧
      (m.setEntry ⟨pt, ptIndex va⟩ e).pageAt r (path va) =
        if has e present then some ⟨frameOf e, leafFlags e []⟩ else none := by
  have hchild : child (4 - [pml4Index va, pdptIndex va, pdIndex va].length) e = none := child_one e
  refine ⟨.leaf hS hO hchild (by simp), ?_⟩
  have hwalk := ((hS.setEntry_leaf (i := ptIndex va) hO hchild (by simp)).2.2 []).1
  show pageOf ([pml4Index va, pdptIndex va, pdIndex va] ++ ptIndex va :: [])
    ((m.setEntry ⟨pt, ptIndex va⟩ e).walk r
      ([pml4Index va, pdptIndex va, pdIndex va] ++ ptIndex va :: [])) = _
  rw [hwalk, pageOf_append hO.walk_length_eq]
  rfl

/-- A page list of four indices below `path va` is `path va`. -/
theorem eq_path_of_onPath (hq : q.length = 4) (h : path va <+: q) : q = path va :=
  (h.eq_of_length (by rw [hq]; rfl)).symm

theorem frameOf_leafValue (physAddr flags : BitVec 64) :
    frameOf (leafValue physAddr flags) = frameOf physAddr := by
  apply BitVec.eq_of_getLsbD_eq
  intro k hk
  have hin : 12 ≤ 12 + k ∧ 12 + k < 52 := by omega
  simp only [leafValue, frameOf_getLsbD, BitVec.getLsbD_or, BitVec.getLsbD_and,
    BitVec.getLsbD_not, pageMask_getLsbD, addrMask_getLsbD, present_getLsbD, hin]
  grind

theorem present_leafValue (physAddr flags : BitVec 64) :
    has (leafValue physAddr flags) present := by
  unfold leafValue
  rw [has_or, Bool.or_eq_true]
  exact .inr (by decide)

/-- The pages after `MapPageInto`: every other page of every address space
keeps its frame, and the page of `va` has the new frame unless the call returned
early because a table could not be allocated. -/
structure Mapped (R : Family) (m : Machine) (r : Frame) (va physAddr flags : BitVec 64)
    (m' : Machine) : Prop where
  change : Change R m r [pml4Index va] m'
  others : ∀ r' q, R.Root r' → q.length = 4 → ¬ (r' = r ∧ q = path va) →
    (m'.pageAt r' q).map Page.frame = (m.pageAt r' q).map Page.frame
  here : m'.trace.tableFailure = true ∨
    m'.trace.tableFailure = m.trace.tableFailure ∧
      m'.pageAt r (path va) = some ⟨frameOf physAddr, leafFlags (leafValue physAddr flags) []⟩

theorem mapPageInto_mapped (hS : Space R m) (hr : r ∈ R.procs) (va physAddr flags : BitVec 64)
    (hscope : R.scope (pml4Index va)) :
    Mapped R m r va physAddr flags ((mapPageInto r va physAddr flags).exec m) := by
  apply Cmd.Ends.exec
  refine (mapPageInto_spec hS hr va physAddr flags hscope).mono ?_ ?_
  · rintro _ m' ⟨pt, m₁, way, rfl⟩
    obtain ⟨hO, hS1⟩ := way.owned hS hr
    obtain ⟨hchange, hpage⟩ := storeLeaf_spec hS1 hO (leafValue physAddr flags)
    have hwide : Change R m₁ r [pml4Index va] _ := hchange.widen ⟨_, rfl⟩
    refine ⟨(way.change hS).trans hwide, ?_, .inr ⟨way.failure, ?_⟩⟩
    · intro r' q hr' hq hne
      have hsame := way.sameFrames hS hr (promotion_of_flags flags) (by simp) r' q hr' hq
      rw [← hsame, pageAt_eq (hchange.elsewhere r' q hr' ?_).1]
      rintro ⟨rfl, hw⟩
      exact hne ⟨rfl, eq_path_of_onPath hq hw⟩
    · rw [hpage, present_leafValue, frameOf_leafValue]
      rfl
  · rintro m' ⟨p, t, i, m₁, way, hlen, hp, hstop⟩
    obtain ⟨hO, hS1⟩ := way.owned hS hr
    have hscope' : R.InScope (p ++ [i]) := inScope_of_onPath hscope hp
    obtain ⟨hchange, hframes, hfail⟩ := hstop.spec hS1 hO hlen hscope' (promotion_of_flags flags)
    have hfirst : (p ++ [i]).take 1 = [pml4Index va] := by
      obtain ⟨s, hs⟩ := hp
      have htake := congrArg (take 1) hs
      rw [take_append_of_le_length (by simp)] at htake
      exact htake
    have hway : Change R m r [pml4Index va] m' := by
      have hstep := hchange.widen ( take_prefix 1 (p ++ [i]))
      rw [hfirst] at hstep
      cases p with
      | nil =>
        rw [way.eq_of_nil rfl] at hstep
        exact hstep
      | cons j p =>
        have hbefore := way.change hS
        have hj : (j :: p).take 1 = [pml4Index va] := hfirst
        rw [hj] at hbefore
        exact hbefore.trans hstep
    refine ⟨hway, ?_, .inl hfail⟩
    intro r' q hr' hq _
    exact ((way.sameFrames hS hr (promotion_of_flags flags) (by omega)).trans hframes) r' q hr' hq

end InstantOS.Vmm

import InstantOS.Memory.VmmTranslation

/-!
# What mapping a page does to the permissions of other pages

`MapPageInto` adds the permissions of the new leaf to every entry above it, and
a cloned table is entered as writable.  The permission of a page is the
conjunction over its whole walk, so a page that shares entries with the new one
may gain a permission.  `widen` says which bits a call adds to the walk of
another page, in terms of the state before the call; `mapPageInto_rights` shows
that this is the exact effect, also when the call returns early.
-/

namespace InstantOS.Vmm

open List

variable {R : Family} {m m' : Machine} {r t u : Frame} {p : List Index} {i : Index}

/-! ## The rights of user code -/

/-- What user code may do through an entry: access, and write. -/
def entryRights (e : Entry) : Bool × Bool :=
  (has e present && has e userSuper, has e present && has e userSuper && has e readWrite)

/-- What user code may do with the page at the end of a walk. -/
def rightsOf (w : List Entry) : Bool × Bool :=
  (w.all fun e => (entryRights e).1, w.all fun e => (entryRights e).2)

theorem rightsOf_append (v w : List Entry) :
    rightsOf (v ++ w) = ((rightsOf v).1 && (rightsOf w).1, (rightsOf v).2 && (rightsOf w).2) := by
  unfold rightsOf
  rw [all_append, all_append]

theorem rightsOf_cons (e : Entry) (w : List Entry) : rightsOf (e :: w) =
      ((entryRights e).1 && (rightsOf w).1, (entryRights e).2 && (rightsOf w).2) := rfl

/-- One entry may be replaced by one with the same rights. -/
theorem rightsOf_congr {e e' : Entry} {v w w' : List Entry} (h : entryRights e = entryRights e')
    (hw : rightsOf w = rightsOf w') : rightsOf (v ++ e :: w) = rightsOf (v ++ e' :: w') := by
  rw [rightsOf_append, rightsOf_append, rightsOf_cons, rightsOf_cons, h, hw]

/-- A walk with a missing entry gives no rights. -/
theorem rightsOf_absent {e : Entry} (hp : has e present = false) {w : List Entry} (he : e ∈ w) :
    rightsOf w = (false, false) := by
  obtain ⟨v, w, rfl⟩ := append_of_mem he
  rw [rightsOf_append, rightsOf_cons]
  simp [entryRights, hp]

section

variable (e : Entry)

theorem entryRights_unmark : entryRights (e &&& ~~~ privateTable) = entryRights e := by
  unfold entryRights
  rw [has_unmark e (by decide), has_unmark e (by decide), has_unmark e (by decide)]

theorem entryRights_unmark_or (bits : Entry) :
    entryRights ((e &&& ~~~ privateTable) ||| bits) = entryRights (e ||| bits) := by
  unfold entryRights
  simp only [has_or, has_unmark e (show present &&& privateTable = 0#64 by decide),
    has_unmark e (show userSuper &&& privateTable = 0#64 by decide),
    has_unmark e (show readWrite &&& privateTable = 0#64 by decide)]

theorem entryRights_cloneEntry (u : Frame) :
    entryRights (cloneEntry u e) = entryRights (e ||| readWrite) := by
  have hmeet := meet_cloneEntry u e ⟨true, true, false⟩
  simp only [Access.meet, Bool.true_and, Access.mk.injEq] at hmeet
  have hpresent : has (e ||| readWrite) present = has e present := by
    rw [has_or, show has readWrite present = false by decide, Bool.or_false]
  unfold entryRights
  rw [present_cloneEntry, hmeet.1, hmeet.2.1, hpresent]

theorem entryRights_splitEntry (u : Frame) : entryRights (splitEntry u e) = (true, true) := by
  have hmeet := meet_splitEntry u e ⟨true, true, false⟩
  simp only [Access.meet, Bool.true_and, Access.mk.injEq] at hmeet
  unfold entryRights
  rw [present_splitEntry, hmeet.1, hmeet.2.1]
  rfl

end

/-- The leaves of a split have the rights of the large leaf. -/
theorem Splits.entryRights {n : Nat} {e : Entry} {leaf : Index → Entry} (h : Splits n e leaf)
    (hp : has e Vmm.present) (j : Index) : Vmm.entryRights (leaf j) = Vmm.entryRights e := by
  unfold Vmm.entryRights
  rw [h.present, h.userSuper, h.readWrite, hp]

/-- Promoting such a leaf once more changes nothing. -/
theorem Splits.entryRights_promote {n : Nat} {e promote : Entry} {leaf : Index → Entry}
    (h : Splits n (e ||| promote) leaf) (hp : has (e ||| promote) Vmm.present) (j : Index) :
    Vmm.entryRights (leaf j ||| promote) = Vmm.entryRights (e ||| promote) := by
  unfold Vmm.entryRights
  rw [has_or (leaf j), has_or (leaf j), has_or (leaf j), h.present, h.userSuper, h.readWrite, hp]
  simp only [has_or, Bool.or_assoc, Bool.or_self, Bool.true_or]

/-! ## The source's two readings of the rights -/

private theorem accessOf_user (w : List Entry) :
    ∀ a : Access, ((accessOf a w).elim false fun b => b.user) = (a.user && (rightsOf w).1) ∧
      ((accessOf a w).elim false fun b => b.user && b.writable) =
        (a.user && a.writable && (rightsOf w).2) := by
  induction w with
  | nil =>
    simp [accessOf, rightsOf]
  | cons e w ih =>
    intro a
    rw [rightsOf_cons]
    unfold accessOf
    cases hp : has e present with
    | false => simp [entryRights, hp]
    | true =>
      rw [if_pos rfl, (ih (a.meet e)).1, (ih (a.meet e)).2]
      simp only [Access.meet, entryRights, hp, Bool.true_and]
      constructor
      · rw [Bool.and_assoc]
      · cases a.user <;> cases a.writable <;> simp

section

variable (hr : r ≠ 0) (a : BitVec 64)

include hr a

private theorem permitsFaultedAccess_eq {errCode : BitVec 64}
    (herr : has errCode 0x28#64 = false) (huser : has errCode 0x4#64)
    (hfetch : has errCode 0x10#64 = false) : permitsFaultedAccess m r a errCode =
      if has errCode 0x2#64 then (rightsOf (m.walk r (path a))).2
      else (rightsOf (m.walk r (path a))).1 := by
  have h := accessOf_user (m.walk r (path a)) ⟨true, true, false⟩
  rw [← accessFrom_eq] at h
  unfold permitsFaultedAccess
  rw [decide_eq_false hr, herr, if_neg (by decide)]
  cases hfrom : accessFrom m a 4 r ⟨true, true, false⟩ with
  | none =>
    rw [hfrom] at h
    simp only [Option.elim_none, Bool.true_and] at h
    rw [← h.1, ← h.2, ite_self]
  | some b =>
    rw [hfrom] at h
    simp only [Option.elim_some, Bool.true_and] at h
    rw [← h.1, ← h.2]
    simp only [huser, hfetch, Bool.true_and, Bool.false_and, Bool.not_false, Bool.and_true,
      Bool.not_not]
    cases has errCode 0x2#64 with
    | false => rfl
    | true =>
      cases b.user with
      | false => simp
      | true => simp

/-- `PermitsFaultedAccess` for a read by user code. -/
theorem permitsFaultedAccess_read :
    permitsFaultedAccess m r a 0x4#64 = (rightsOf (m.walk r (path a))).1 :=
  permitsFaultedAccess_eq hr a (by decide) (by decide) (by decide)

/-- `PermitsFaultedAccess` for a write by user code. -/
theorem permitsFaultedAccess_write :
    permitsFaultedAccess m r a 0x6#64 = (rightsOf (m.walk r (path a))).2 :=
  permitsFaultedAccess_eq hr a (by decide) (by decide) (by decide)

end

private theorem user_test (e : Entry) :
    (e &&& (present ||| userSuper) == present ||| userSuper) = (entryRights e).1 := by
  unfold entryRights
  rw [has_present, has_userSuper, Bool.eq_iff_iff, beq_iff_eq, Bool.and_eq_true]
  exact both_bits e (show 0 < 64 by decide) (show 2 < 64 by decide)

/-- `IsUserMapped`. -/
theorem isUserMapped_eq (hr : r ≠ 0) (a : BitVec 64) :
    isUserMapped m r a = (rightsOf (m.walk r (path a))).1 := by
  unfold isUserMapped Machine.walk path rightsOf
  simp only [user_test, Radix.walk_cons, child]
  generalize m.mem r (pml4Index a) = pml4e
  generalize hpdpte : m.mem (frameOf pml4e) (pdptIndex a) = pdpte
  generalize hpde : m.mem (frameOf pdpte) (pdIndex a) = pde
  rw [show (r != 0) = true from bne_iff_ne.mpr hr]
  cases p4 : has pml4e present with
  | false => simp [p4, entryRights]
  | true =>
    cases p3 : has pdpte present with
    | false => simp [hpdpte, p4, p3, entryRights]
    | true =>
      cases l3 : has pdpte largePage with
      | true => simp [hpdpte, l3]
      | false =>
        cases p2 : has pde present with
        | false => simp [hpdpte, hpde, p4, p3, l3, p2, entryRights]
        | true =>
          cases l2 : has pde largePage with
          | true => simp [hpdpte, hpde, p3, l3, l2, Bool.and_assoc]
          | false =>
            simp [hpdpte, hpde, p3, l3, p2, l2, Bool.and_assoc]

/-! ## The bits a call adds -/

/-- The walk of another page that has its first `k` entries in common with the
walk of the new page, with the bits that the call adds.  Every table entry gets
the promoted bits; one whose table is cloned also becomes writable.  `own` says
that all entries so far were private, so that their tables are not cloned, and
`c` counts the clones so far.  A missing entry or a large leaf ends the common
part, and so does a clone for which there is no frame. -/
def widen (promote : Entry) (supply : Nat → Bool) : Nat → Bool → Nat → List Entry → List Entry
  | k + 1, own, c, e :: w =>
    if !has e present then e :: w
    else if has e largePage then (e ||| promote) :: w
    else if own && has e privateTable then (e ||| promote) :: widen promote supply k true c w
    else if supply (c + 1) then
      (e ||| promote ||| readWrite) :: widen promote supply k false (c + 1) w
    else (e ||| promote) :: w
  | _, _, _, w => w

section

variable (promote : Entry) {supply supply' : Nat → Bool} {e : Entry}

@[simp] theorem widen_zero (own : Bool) (c : Nat) (w : List Entry) :
    widen promote supply 0 own c w = w := by
  cases w <;> rfl

theorem widen_absent (hp : has e present = false) (k : Nat) (own : Bool) (c : Nat)
    (w : List Entry) : widen promote supply k own c (e :: w) = e :: w := by
  cases k with
  | zero => rfl
  | succ k =>
    unfold widen
    rw [hp]
    rfl

theorem widen_large (hp : has e present) (hl : has e largePage) (k : Nat)
    (own : Bool) (c : Nat) (w : List Entry) :
    widen promote supply (k + 1) own c (e :: w) = (e ||| promote) :: w := by
  unfold widen
  rw [hp, hl]
  rfl

theorem widen_table (hp : has e present) (hl : has e largePage = false) (k : Nat) (own : Bool)
    (c : Nat) (w : List Entry) : widen promote supply (k + 1) own c (e :: w) =
      if own && has e privateTable then (e ||| promote) :: widen promote supply k true c w
      else if supply (c + 1) then
        (e ||| promote ||| readWrite) :: widen promote supply k false (c + 1) w
      else (e ||| promote) :: w := by
  rw [widen, hp, hl]
  rfl

/-- Counting the clones from one more, with one table less to supply. -/
theorem widen_shift (hs : ∀ c, supply' c = supply (c + 1)) (k : Nat) : ∀ (c : Nat) (w : List Entry),
      widen promote supply' k false c w = widen promote supply k false (c + 1) w := by
  induction k with
  | zero => intro c w; rw [widen_zero, widen_zero]
  | succ k ih =>
    intro c w
    cases w with
    | nil => rfl
    | cons e w =>
      simp only [widen, Bool.false_and, Bool.false_eq_true, ↓reduceIte, hs, ih]

/-- The entries of a cloned table carry no marker: it is the same as to forget
that the entries so far were private. -/
theorem rightsOf_widen_unmark (hs : ∀ c, supply' c = supply (c + 1)) (k : Nat) (y : Entry)
    (w : List Entry) : rightsOf (widen promote supply' k true 0 ((y &&& ~~~ privateTable) :: w)) =
      rightsOf (widen promote supply k false 1 (y :: w)) := by
  have hp : has (y &&& ~~~ privateTable) present = has y present := has_unmark y (by decide)
  have hl : has (y &&& ~~~ privateTable) largePage = has y largePage := has_unmark y (by decide)
  cases k with
  | zero =>
    rw [widen_zero, widen_zero, rightsOf_cons, rightsOf_cons, entryRights_unmark]
  | succ k =>
    simp only [widen, hp, hl, has_unmark_private, Bool.false_and, Bool.and_false, hs,
      widen_shift promote hs]
    split
    · rw [rightsOf_cons, rightsOf_cons, entryRights_unmark]
    split
    · rw [rightsOf_cons, rightsOf_cons, entryRights_unmark_or]
    simp only [Bool.false_eq_true, ↓reduceIte]
    split
    · rw [rightsOf_cons, rightsOf_cons, BitVec.or_assoc, entryRights_unmark_or, BitVec.or_assoc]
    · rw [rightsOf_cons, rightsOf_cons, entryRights_unmark_or]

end

/-! ## The effect of one level -/

section

variable {promote : Entry}

/-- The rights below an opened entry, with bits to be added further down, are
those of the state before with the bits of this level added too. -/
theorem Opened.rights (hpromote : Promotion promote) (hlen : p.length ≤ 2)
    (h : Opened R m r p t i promote u m') {k : Nat} (hk : k ≤ 2 - p.length) (j : Index)
    (s : List Index) : rightsOf (m'.walk r (p ++ [i]) ++ widen promote (supplies m'.pmm) k true 0
        (m'.mem u j :: m'.below (4 - (p ++ [i]).length) (m'.mem u j) s)) =
      rightsOf (m.walk r p ++ widen promote (supplies m.pmm) (k + 1) true 0
        (m.mem t i :: m.below (4 - p.length) (m.mem t i) (j :: s))) := by
  obtain ⟨x, hx, hwalk, hopening⟩ := h.opening
  have hbelow : m'.below (4 - (p ++ [i]).length) (m'.mem u j) s =
      m.below (4 - p.length - 1) (m'.mem u j) s := by
    have hslot := h.owned.walk_slot (i := j) s
    rw [append_assoc] at hslot
    have hboth := (hwalk j s).symm.trans hslot
    rw [hx, append_assoc] at hboth
    have htail := append_cancel_left hboth
    simp only [cons_append, nil_append, cons.injEq, true_and] at htail
    exact htail.symm
  rw [hx, hbelow, append_assoc, cons_append, nil_append]
  generalize m.mem t i = e at hopening ⊢
  cases hopening with
  | owned hp hl hpriv hx _ hy _ hpmm =>
    rw [hx, hy, hpmm, widen_table promote hp hl, if_pos (by simp [hpriv]),
      m.below_table (by omega) hp hl]
  | cloned hp hl hpriv hx hy _ hgrant =>
    have hsupply : ∀ c, supplies m'.pmm c = supplies m.pmm (c + 1) :=
      fun c => (supplies_succ hgrant.taken c).symm
    rw [hx, hy, Machine.below_congr (child_unmark _ _), widen_table promote hp hl,
      if_neg (by simp [hpriv]), if_pos (show supplies m.pmm 1 = true from (hsupply 0).symm),
      m.below_table (by omega) hp hl]
    exact rightsOf_congr (entryRights_cloneEntry _ u) (rightsOf_widen_unmark promote hsupply k _ _)
  | created hp v hx hy _ =>
    rw [hy, widen_absent promote (has_zero present), widen_absent promote hp,
      rightsOf_absent (has_zero present) (by simp), rightsOf_absent hp (by simp)]
  | split hp hn hl hx hy _ _ =>
    have hp' : has (e ||| promote) present := by
      rw [present_promote hpromote, hp]
    -- a leaf of the split is promoted once more when it is large itself
    have hleaf : rightsOf (widen promote (supplies m'.pmm) k true 0 [m'.mem u j]) =
        rightsOf [e ||| promote] := by
      cases k with
      | zero => rw [widen_zero, rightsOf_cons, rightsOf_cons, hy.entryRights hp']
      | succ k =>
        have hlarge : has (m'.mem u j) largePage := by
          cases hl' : has (m'.mem u j) largePage with
          | true => rfl
          | false =>
            have hnone := hy.noChild j
            rw [child_eq_some (by omega) (hy.present j) (.inr hl')] at hnone
            cases hnone
        rw [widen_large promote (hy.present j) hlarge, rightsOf_cons, rightsOf_cons,
          hy.entryRights_promote hp']
    rw [hx, Machine.below_none (hy.noChild j), Machine.below_none (child_eq_none_of_large hn hl),
      widen_large promote hp hl, rightsOf_append, rightsOf_append,
      rightsOf_cons, hleaf, entryRights_splitEntry, Bool.true_and, Bool.true_and]

/-- The same for a call that returns early at the entry. -/
theorem Stopped.rights (hpromote : Promotion promote) (hS : Space R m) (hO : Owned R m r p t)
    (hlen : p.length ≤ 2) (hscope : R.InScope (p ++ [i])) (h : Stopped m t i promote m') (k : Nat)
    (j : Index) (s : List Index) : rightsOf (m'.walk r (p ++ i :: j :: s)) =
      rightsOf (m.walk r p ++ widen promote (supplies m.pmm) (k + 1) true 0
        (m.mem t i :: m.below (4 - p.length) (m.mem t i) (j :: s))) := by
  cases h with
  | absent hp =>
    rw [widen_absent promote hp]
    show rightsOf (m.walk r (p ++ i :: j :: s)) = _
    rw [hO.walk_slot]
  | @ensured m1 hens hwhy =>
    show rightsOf (m1.walk r (p ++ i :: j :: s)) = _
    cases hens with
    | promoted hp =>
      rw [(walk_promoted hS hO hpromote (hS.top_of_nil hO hscope hp) (j :: s)).1]
      cases hl : has (m.mem t i) largePage with
      | true => rw [widen_large promote hp hl]
      | false =>
        obtain ⟨hnone, hpriv⟩ := hwhy hp
        rw [widen_table promote hp hl, if_neg (by simp [hpriv hl]),
          if_neg (by simp [supplies_none hnone])]
    | installed hp v pmm hgrant =>
      have hlink := link_fresh (i := i) hS hO hlen hgrant
      rw [hlink.below, widen_absent promote hp, rightsOf_absent (has_zero present) (by simp),
        rightsOf_absent hp (by simp)]

end

/-! ## The effect of the whole way -/

/-- How many indices two index lists have in common. -/
def shared : List Index → List Index → Nat
  | a :: q, b :: v => if a = b then shared q v + 1 else 0
  | _, _ => 0

@[simp] theorem shared_nil (q : List Index) : shared q [] = 0 := by
  cases q <;> rfl

theorem shared_le (q v : List Index) : shared q v ≤ v.length := by
  induction v generalizing q with
  | nil => simp
  | cons b v ih =>
    cases q with
    | nil => exact Nat.zero_le _
    | cons a q =>
      unfold shared
      split
      · exact Nat.succ_le_succ (ih q)
      · exact Nat.zero_le _

theorem shared_append (p q v : List Index) : shared (p ++ q) (p ++ v) = p.length + shared q v := by
  induction p with
  | nil => simp
  | cons a p ih =>
    simp only [cons_append, shared, ↓reduceIte, length_cons]
    omega

/-- Where two lists have parted, the rest of the second one does not matter. -/
theorem shared_of_parted {q v : List Index} (hv : p ++ [i] <+: v) (hq : ¬ p ++ [i] <+: q) :
    shared q v = shared q p := by
  induction p generalizing q v with
  | nil =>
    obtain ⟨s, rfl⟩ := hv
    cases q with
    | nil => rfl
    | cons a q =>
      have hne : a ≠ i := by
        rintro rfl
        exact hq ⟨q, rfl⟩
      exact if_neg hne
  | cons b p ih =>
    obtain ⟨s, rfl⟩ := hv
    cases q with
    | nil => rfl
    | cons a q =>
      simp only [cons_append, shared]
      by_cases hab : a = b
      · subst hab
        rw [if_pos rfl, if_pos rfl, ih ⟨s, rfl⟩]
        rintro ⟨s', hs'⟩
        exact hq ⟨s', by rw [← hs']; rfl⟩
      · rw [if_neg hab, if_neg hab]

section

variable {promote : Entry} (hpromote : Promotion promote) (hr : r ∈ R.procs)

include hpromote

/-- The rights below the last opened table. -/
theorem Way.rights_below (h : Way R m r promote p t m') (hlen : p.length ≤ 3) :
    ∀ (k : Nat) (i : Index) (s : List Index), k ≤ 3 - p.length →
      rightsOf (m'.walk r p ++ widen promote (supplies m'.pmm) k true 0
          (m'.mem t i :: m'.below (4 - p.length) (m'.mem t i) s)) =
        rightsOf (widen promote (supplies m.pmm) (p.length + k) true 0
          (m.walk r (p ++ i :: s))) := by
  induction h with
  | root =>
    intro k i s _
    rw [length_nil, Nat.zero_add]
    rfl
  | @step p t u i0 m1 m2 way opened ih =>
    intro k i s hk
    simp only [length_append, length_cons] at hlen hk
    rw [opened.rights hpromote (by omega) (by omega), ih (by omega) (k + 1) i0 (i :: s)
      (by omega), append_assoc]
    simp only [length_append]
    rw [show p.length + (k + 1) = p.length + (0 + 1) + k by omega]
    rfl

include hr in
/-- **The rights of all pages after opening a way.** -/
theorem Way.rights (h : Way R m r promote p t m') (hlen : p.length ≤ 3) {q : List Index}
    (hq : q.length = 4) : rightsOf (m'.walk r q) =
      rightsOf (widen promote (supplies m.pmm) (shared q p) true 0 (m.walk r q)) := by
  induction h with
  | root => rw [shared_nil, widen_zero]
  | @step p t u i m1 m2 way opened ih =>
    have hlen' := hlen
    simp only [length_append, length_cons, length_nil] at hlen'
    by_cases hw : p ++ [i] <+: q
    · obtain ⟨j, s, rfl, -⟩ := split_path (by omega) hq hw
      have hbelow := Way.rights_below hpromote (.step way opened) hlen 0 j s (by omega)
      have hslot := opened.owned.walk_slot (i := j) s
      rw [widen_zero, ← hslot, Nat.add_zero] at hbelow
      rw [show p ++ i :: j :: s = (p ++ [i]) ++ j :: s by simp, hbelow]
      have hshared := shared_append (p ++ [i]) (j :: s) []
      rw [append_nil, shared_nil, Nat.add_zero] at hshared
      rw [hshared]
    · have hsame := (opened.change.elsewhere r q (.inr hr) (fun h => hw h.2)).1
      rw [hsame, ih (by omega), shared_of_parted prefix_rfl hw]

end

/-- The walk of the page `q` with the bits that mapping a page at `va` adds to
it, in the state before the call. -/
def widenedWalk (m : Machine) (r : Frame) (va flags : BitVec 64) (q : List Index) : List Entry :=
  widen ((flags &&& userSuper) ||| (flags &&& readWrite)) (supplies m.pmm)
    (shared q (upperPath va)) true 0 (m.walk r q)

/-- **The exact effect of `MapPageInto` on the rights of other pages.** -/
theorem mapPageInto_rights (hS : Space R m) (hr : r ∈ R.procs) (va physAddr flags : BitVec 64)
    (hscope : R.scope (pml4Index va)) {q : List Index} (hq : q.length = 4) (hne : q ≠ path va) :
    rightsOf (((mapPageInto r va physAddr flags).exec m).walk r q) =
      rightsOf (widenedWalk m r va flags q) := by
  have hpromote := promotion_of_flags flags
  apply Cmd.Ends.exec
    (P := fun m' : Machine => rightsOf (m'.walk r q) = rightsOf (widenedWalk m r va flags q))
  refine (mapPageInto_spec hS hr va physAddr flags hscope).mono ?_ ?_
  · rintro _ m' ⟨pt, m1, way, rfl⟩
    obtain ⟨hO, hS1⟩ := way.owned hS hr
    have hchange := (storeLeaf_spec hS1 hO (leafValue physAddr flags)).1
    have hsame := (hchange.elsewhere r q (.inr hr) (fun h => hne (eq_path_of_onPath hq h.2))).1
    rw [hsame, way.rights hpromote hr (by simp) hq]
    rfl
  · rintro m' ⟨p, t, i, m1, way, hlen, hp, hstop⟩
    obtain ⟨hO, hS1⟩ := way.owned hS hr
    have hscope' : R.InScope (p ++ [i]) := inScope_of_onPath hscope hp
    have hupper := onUpperPath hlen hp
    unfold widenedWalk
    by_cases hw : p ++ [i] <+: q
    · obtain ⟨j, s, rfl, -⟩ := split_path hlen hq hw
      obtain ⟨v, hv⟩ := hupper
      have hshared : shared (p ++ i :: j :: s) (upperPath va) =
          p.length + (shared (j :: s) v + 1) := by
        rw [← hv, show p ++ i :: j :: s = (p ++ [i]) ++ j :: s by simp, shared_append]
        simp only [length_append, length_cons, length_nil]
        omega
      have hk : shared (j :: s) v + 1 ≤ 3 - p.length := by
        have hle := shared_le (j :: s) v
        have hlength := congrArg length hv
        simp only [length_append, length_cons, upperPath] at hlength
        omega
      rw [hstop.rights hpromote hS1 hO hlen hscope' (shared (j :: s) v),
        way.rights_below hpromote (by omega) _ i (j :: s) hk, hshared]
    · obtain ⟨hchange, -⟩ := hstop.spec hS1 hO hlen hscope' hpromote
      have hsame := (hchange.elsewhere r q (.inr hr) (fun h => hw h.2)).1
      rw [hsame, way.rights hpromote hr (by omega) hq, shared_of_parted hupper hw]

/-! ## Exposure -/

/-- What user code may do with the pages of `r` other than that of `va` is the
same in both machines, as `IsUserMapped` and `PermitsFaultedAccess` (for a read
and for a write of user code) compute it. -/
def KeepsRights (m m' : Machine) (r : Frame) (va : BitVec 64) : Prop :=
  ∀ a, virtualPage a ≠ virtualPage va →
    isUserMapped m' r a = isUserMapped m r a ∧
      permitsFaultedAccess m' r a 0x4#64 = permitsFaultedAccess m r a 0x4#64 ∧
      permitsFaultedAccess m' r a 0x6#64 = permitsFaultedAccess m r a 0x6#64

theorem keepsRights_iff {va : BitVec 64} (hr : r ≠ 0) :
    KeepsRights m m' r va ↔ ∀ a, virtualPage a ≠ virtualPage va →
      rightsOf (m'.walk r (path a)) = rightsOf (m.walk r (path a)) := by
  unfold KeepsRights
  simp only [isUserMapped_eq hr, permitsFaultedAccess_read hr, permitsFaultedAccess_write hr]
  constructor
  · intro h a ha
    exact Prod.ext (h a ha).1 (h a ha).2.2
  · intro h a ha
    rw [h a ha]
    exact ⟨rfl, rfl, rfl⟩

/-- **Which calls of `MapPageInto` expose no other page**: those for which the
bits added to the entries in common with the walk of `va` complete no missing
permission of another page. -/
theorem mapPageInto_keepsRights_iff (hS : Space R m) (hr : r ∈ R.procs)
    (va physAddr flags : BitVec 64) (hscope : R.scope (pml4Index va)) :
    KeepsRights m ((mapPageInto r va physAddr flags).exec m) r va ↔
      ∀ a, virtualPage a ≠ virtualPage va →
        rightsOf (widenedWalk m r va flags (path a)) = rightsOf (m.walk r (path a)) := by
  have hne : r ≠ 0 := (hS.backed r ⟨r, [], .inr hr, rfl⟩).nonzero
  rw [keepsRights_iff hne]
  have heffect : ∀ a, virtualPage a ≠ virtualPage va →
      rightsOf (((mapPageInto r va physAddr flags).exec m).walk r (path a)) =
        rightsOf (widenedWalk m r va flags (path a)) := by
    intro a ha
    exact mapPageInto_rights hS hr va physAddr flags hscope rfl
      (fun h => ha ((path_eq_iff a va).mp h))
  exact forall₂_congr fun a ha => by rw [heffect a ha]

/-- A page below an empty top-level entry of the sample machine is mapped:
nothing is shared, so nothing is exposed. -/
theorem mapPageInto_keepsRights_sample : KeepsRights sampleMachine
      ((mapPageInto 2#40 0x8000000000#64 0x9000#64 7#64).exec sampleMachine) 2#40
      0x8000000000#64 := by
  refine (mapPageInto_keepsRights_iff sampleMachine_space (mem_singleton_self _)
    0x8000000000#64 0x9000#64 7#64 trivial).mpr (fun a _ => ?_)
  unfold widenedWalk
  by_cases hi : pml4Index a = 1#9
  · -- the walk of `a` ends at the same empty entry
    have hwalk : sampleMachine.walk 2#40 (path a) = 0#64 :: [] := by
      unfold Machine.walk path
      rw [hi]
      rfl
    rw [hwalk, widen_absent _ (has_zero present)]
  · have hshared : shared (path a) (upperPath 0x8000000000#64) = 0 := by
      show (if pml4Index a = 1#9 then _ else 0) = 0
      rw [if_neg hi]
    rw [hshared, widen_zero]

/-- A page is mapped into the supervisor leaf of 1 GiB of the sample machine:
the next page becomes accessible to user code. -/
theorem mapPageInto_exposes_sibling :
    ¬ ∀ (R : Family) (m : Machine) (r : Frame) (va physAddr flags : BitVec 64),
      Space R m → r ∈ R.procs → R.scope (pml4Index va) →
      KeepsRights m ((mapPageInto r va physAddr flags).exec m) r va := by
  intro hall
  have h := hall _ sampleMachine 2#40 0x5000#64 0x9000#64 7#64 sampleMachine_space
    (mem_singleton_self _) trivial 0x6000#64 (by decide)
  exact absurd h.1 (by decide +kernel)

end InstantOS.Vmm

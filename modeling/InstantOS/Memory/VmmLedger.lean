import InstantOS.Memory.VmmTables

/-!
# Inherited entries

Teardown tells the tables of an address space from the kernel's by comparing
entries with the kernel's entry at the same place.  `Inherits` says when that
works: an entry that names a table of somebody else is the kernel's entry, and
an entry for an own table below the top level carries the user bit.  The two
calls that edit an address space keep this together with the books, under
conditions on the entries above the page they are called for.
-/

namespace InstantOS.Vmm

open List

variable {R : Family} {m m' : Machine} {r t u v : Frame} {p q : List Index} {i j : Index}

/-- The table entries of the address space `r` that are not its own are the
kernel's, its own ones are user entries, and the kernel has no large entry at
the top level, where there are none. -/
structure Inherits (R : Family) (m : Machine) (r : Frame) : Prop where
  shared : ∀ p t i, Owned R m r p t → R.InScope (p ++ [i]) →
    child (4 - p.length) (m.mem t i) ≠ none → has (m.mem t i) privateTable = false →
    ∃ t₀, m.tableAt R.kernel p = some t₀ ∧
      m.mem t i &&& ~~~ privateTable = m.mem t₀ i &&& ~~~ privateTable
  user : ∀ p t i u, p ≠ [] → Owned R m r p t → Owned R m r (p ++ [i]) u →
    has (m.mem t i) userSuper = true
  top : ∀ i, R.scope i → has (m.mem R.kernel i) present = true →
    has (m.mem R.kernel i) largePage = false

theorem Inherits.outside (hI : Inherits R m r) (h : Outside R m m') : Inherits R m' r := by
  refine ⟨?_, ?_, ?_⟩
  · intro p t i hO hscope hchild hpriv
    have hO' := h.owned_iff.mp hO
    rw [h.agree t i hO'.reaches] at hchild hpriv ⊢
    obtain ⟨t₀, ht0, heq⟩ := hI.shared p t i hO' hscope hchild hpriv
    refine ⟨t₀, (h.walk (.inl rfl) p).2.trans ht0, ?_⟩
    rw [h.agree t₀ i ⟨R.kernel, p, .inl rfl, ht0⟩]
    exact heq
  · intro p t i u hp hO hU
    have hO' := h.owned_iff.mp hO
    rw [h.agree t i hO'.reaches]
    exact hI.user p t i u hp hO' (h.owned_iff.mp hU)
  · intro i
    rw [h.agree R.kernel i ⟨R.kernel, [], .inl rfl, rfl⟩]
    exact hI.top i

/-- The entry is the kernel's at the same place. -/
def Shares (R : Family) (m : Machine) (p : List Index) (t : Frame) (i : Index) : Prop :=
  ∃ t₀, m.tableAt R.kernel p = some t₀ ∧
    m.mem t i &&& ~~~ privateTable = m.mem t₀ i &&& ~~~ privateTable

/-- After a change at an entry of an own table, only this entry and those behind
it have to be looked at. -/
private theorem Inherits.slot (hI : Inherits R m r) (hkernel : R.kernel ≠ r) (hO : Owned R m r p t)
    (h : Change R m r (p ++ [i]) m')
    (hhere : child (4 - p.length) (m'.mem t i) = none ∨ has (m'.mem t i) privateTable)
    (huser : ∀ u, p ≠ [] → Owned R m' r (p ++ [i]) u → has (m'.mem t i) userSuper)
    (hbehind : ∀ p' t' i', p ++ [i] <+: p' → Owned R m' r p' t' →
      (R.InScope (p' ++ [i']) → child (4 - p'.length) (m'.mem t' i') ≠ none →
        has (m'.mem t' i') privateTable = false → Shares R m' p' t' i') ∧
      ∀ u, Owned R m' r (p' ++ [i']) u → has (m'.mem t' i') userSuper) : Inherits R m' r := by
  have hcases : ∀ {p' t'} i', Owned R m' r p' t' → (p' = p ∧ t' = t ∧ i' = i) ∨ p ++ [i] <+: p' ∨
      ¬ p ++ [i] <+: p' ++ [i'] ∧ Owned R m r p' t' ∧ m'.mem t' i' = m.mem t' i' := by
    intro p' t' i' hO'
    by_cases hw : p ++ [i] <+: p' ++ [i']
    · rcases prefix_concat_iff.mp hw with heq | hp'
      · obtain ⟨rfl, hi⟩ := append_inj' heq rfl
        have ht := hO'.unique (h.owned hO (not_below_slot p i))
        exact .inl ⟨rfl, ht, by simpa using hi.symm⟩
      · exact .inr (.inl hp')
    · have hold := (h.owned_iff fun hp => hw (hp.trans (prefix_append p' [i']))).mp hO'
      exact .inr (.inr ⟨hw, hold, (h.entry hold.root hold.reached fun hin => hw hin.2).2⟩)
  refine ⟨fun p' t' i' hO' hscope hchild hpriv => ?_, fun p' t' i' u' hp' hO' hU' => ?_,
    fun j hscope hp => ?_⟩
  · rcases hcases i' hO' with ⟨rfl, rfl, rfl⟩ | hp' | ⟨-, hold, hentry⟩
    · rcases hhere with hnone | hmark
      · exact absurd hnone hchild
      · cases hpriv.symm.trans hmark
    · exact (hbehind p' t' i' hp' hO').1 hscope hchild hpriv
    rw [hentry] at hchild hpriv ⊢
    obtain ⟨t₀, ht0, heq⟩ := hI.shared p' t' i' hold hscope hchild hpriv
    have hk := h.entry (j := i') (.inl rfl) ht0 (fun hin => hkernel hin.1)
    exact ⟨t₀, hk.1, by rw [hk.2]; exact heq⟩
  · rcases hcases i' hO' with ⟨rfl, rfl, rfl⟩ | hbelow | ⟨hw, hold, hentry⟩
    · exact huser u' hp' hU'
    · exact (hbehind p' t' i' hbelow hO').2 u' hU'
    · rw [hentry]
      exact hI.user p' t' i' u' hp' hold ((h.owned_iff hw).mp hU')
  · have hk := (h.entry (q := []) (j := j) (.inl rfl) rfl (fun hin => hkernel hin.1)).2
    rw [hk] at hp ⊢
    exact hI.top j hscope hp

/-- Writing a leaf, or nothing. -/
theorem Inherits.leaf (hI : Inherits R m r) (hS : Space R m) (hkernel : R.kernel ≠ r)
    (hO : Owned R m r p t) {e : Entry} (hnone : child (4 - p.length) e = none)
    (htop : p = [] → has e present → has e largePage = false) :
    Inherits R (m.setEntry ⟨t, i⟩ e) r := by
  have hchange : Change R m r (p ++ [i]) (m.setEntry ⟨t, i⟩ e) := .leaf hS hO hnone htop
  -- no owned table lies behind the entry
  have hnothing : ∀ q v, p ++ [i] <+: q → ¬ Owned R (m.setEntry ⟨t, i⟩ e) r q v := by
    intro q v hq hv
    obtain ⟨s, rfl⟩ := through_slot hq
    cases ((hS.setEntry_leaf hO hnone htop).2.2 s).2.symm.trans hv.reached
  refine hI.slot hkernel hO hchange (.inl ?_) (fun u _ hU => ?_) fun p' t' i' hp' hO' => ?_
  · rw [setEntry_mem]
    exact hnone
  · exact absurd hU (hnothing _ u (prefix_refl _))
  · exact absurd hO' (hnothing p' t' hp')

variable {promote : Entry}

theorem Opened.entry_eq (hO : Owned R m r p t) (h : Opened R m r p t i promote u m') {x : Entry}
    (hx : m'.walk r (p ++ [i]) = m.walk r p ++ [x]) : m'.mem t i = x := by
  have hO' := h.change.owned hO (not_below_slot p i)
  have hsame := (h.change.elsewhere r p hO.root (fun hin => not_below_slot p i hin.2)).1
  have hslot := hO'.walk_slot (i := i) []
  rw [hsame, hx] at hslot
  have htail := append_cancel_left hslot
  exact (cons.inj htail).1.symm

/-- The user bit of a cloned or promoted entry. -/
theorem userSuper_cloneEntry (u : Frame) (e : Entry) :
    has (cloneEntry u e) userSuper = has e userSuper := by
  rw [has_userSuper, has_userSuper]
  simp [cloneEntry, addrOf, addrMask, readWrite, privateTable]

theorem userSuper_splitEntry (u : Frame) (e : Entry) : has (splitEntry u e) userSuper := by
  rw [has_userSuper]
  simp [splitEntry, userSuper]

section

variable {promote : Entry} (hI : Inherits R m r) (hS : Space R m) (hkernel : R.kernel ≠ r)
  (hO : Owned R m r p t) (hpromote : Promotion promote) (hlen : p.length ≤ 2)
  (hp : has (m.mem t i) present = true) (h : Opened R m r p t i promote u m')

omit hI hkernel hlen in
include hS hO hpromote hp h in
/-- Behind an entry that was private nothing changes. -/
private theorem opened_private_behind {p' : List Index} {t' : Frame} {i' : Index}
    (hl : has (m.mem t i) largePage = false) (hpriv : has (m.mem t i) privateTable = true)
    (hw : p ++ [i] <+: p') (hO' : Owned R m' r p' t') :
    Owned R m r p' t' ∧ m'.mem t' i' = m.mem t' i' := by
  have hold := (h.private_owned_iff hpromote hO hS hp hl hpriv).mp hO'
  have hne : t' ≠ t := by
    obtain ⟨s, rfl⟩ := through_slot hw
    exact hO.ne_below hS hold.reached
  rw [h.promoted hp hl hpriv]
  exact ⟨hold, if_neg (fun hin => hne hin.1)⟩

include hI hS hkernel hO hpromote hlen hp h

/-- Entries of tables behind the opened entry. -/
private theorem opened_shared_behind {p' : List Index} {t' : Frame} {i' : Index}
    (hw : p ++ [i] <+: p') (hO' : Owned R m' r p' t') (hscope : R.InScope (p' ++ [i']))
    (hchild : child (4 - p'.length) (m'.mem t' i') ≠ none)
    (hpriv : has (m'.mem t' i') privateTable = false) : Shares R m' p' t' i' := by
  unfold Shares
  have hk : ∀ {t₀}, m.tableAt R.kernel p' = some t₀ →
      m'.tableAt R.kernel p' = some t₀ ∧ m'.mem t₀ i' = m.mem t₀ i' :=
    fun ht0 => h.change.entry (.inl rfl) ht0 (fun hin => hkernel hin.1)
  obtain ⟨x, -, -, hopening⟩ := h.opening
  cases hopening with
  | owned _ hl hpriv0 _ _ _ _ _ =>
    obtain ⟨hold, hentry⟩ := opened_private_behind hS hO hpromote hp h hl hpriv0 hw hO'
    rw [hentry] at hchild hpriv ⊢
    obtain ⟨t₀, ht0, heq⟩ := hI.shared p' t' i' hold hscope hchild hpriv
    exact ⟨t₀, (hk ht0).1, by rw [(hk ht0).2]; exact heq⟩
  | cloned _ hl hpriv0 _ hy _ _ =>
    -- nothing was owned here before, so this is the new table
    rcases (h.owned_iff hpromote hO hS hlen).mp hO' with hold | ⟨rfl, rfl⟩
    · exact absurd hold (hO.not_through (.inl hpriv0) hw)
    have htable : child (4 - p.length) (m.mem t i) = some (frameOf (m.mem t i)) :=
      child_eq_some (by omega) hp (.inr hl)
    have hscope0 : R.InScope (p ++ [i]) := by
      intro k hk
      apply hscope k
      cases p with
      | nil | cons => exact hk
    obtain ⟨t₀, ht0, heq⟩ := hI.shared p t i hO hscope0 (by rw [htable]; simp) hpriv0
    have hk0 : m.tableAt R.kernel (p ++ [i]) = some (frameOf (m.mem t i)) := by
      rw [Machine.tableAt_concat ht0, ← child_unmark, ← heq, child_unmark, htable]
    refine ⟨_, (hk hk0).1, ?_⟩
    rw [(hk hk0).2, hy, BitVec.and_assoc, BitVec.and_self]
  | created hnot _ _ _ _ => cases hp.symm.trans hnot
  | split _ hn hl _ hy _ _ =>
    rcases (h.owned_iff hpromote hO hS hlen).mp hO' with hold | ⟨rfl, rfl⟩
    · exact absurd hold (hO.not_through (.inr (child_eq_none_of_large hn hl)) hw)
    have hnone := hy.noChild i'
    rw [show 4 - p.length - 1 = 4 - (p ++ [i]).length by
      simp only [length_append, length_cons, length_nil]; omega] at hnone
    exact absurd hnone hchild

/-- **Opening a present entry** keeps what teardown relies on, when the entry of
a table that is cloned is a user entry. -/
theorem Inherits.opened (huser : p ≠ [] → has (m.mem t i) largePage = false →
      has (m.mem t i) privateTable = false → has (m.mem t i ||| promote) userSuper) :
    Inherits R m' r := by
  have hOwned : Owned R m' r p t := h.change.owned hO (not_below_slot p i)
  obtain ⟨x, hx, -, hopening⟩ := h.opening
  refine hI.slot hkernel hO h.change (.inr ?_) (fun u' hp' hU' => ?_) fun p' t' i' hbehind hO' =>
    ⟨opened_shared_behind hI hS hkernel hO hpromote hlen hp h hbehind hO', fun u' hU' => ?_⟩
  · obtain ⟨y, hy, hmark, -⟩ := h.owned.parent
    rwa [hy.unique hOwned] at hmark
  · rw [h.entry_eq hO hx]
    cases hopening with
    | owned _ hl hpriv0 hx _ _ _ _ =>
      have hold := (h.private_owned_iff hpromote hO hS hp hl hpriv0).mp hU'
      rw [hx, has_or, hI.user p t i u' hp' hO hold, Bool.true_or]
    | cloned _ hl hpriv0 hx _ _ _ =>
      rw [hx, userSuper_cloneEntry]
      exact huser hp' hl hpriv0
    | created hnot _ _ _ _ => cases hp.symm.trans hnot
    | split _ _ _ hx _ _ _ => rw [hx, userSuper_splitEntry]
  · -- behind the entry an owned table was there before
    have hw : p ++ [i] <+: p' ++ [i'] := hbehind.trans (prefix_append ..)
    have hold : Owned R m r (p' ++ [i']) u' := by
      rcases (h.owned_iff hpromote hO hS hlen).mp hU' with hold | ⟨heq, -⟩
      · exact hold
      · rw [append_inj_left' heq rfl] at hbehind
        exact absurd hbehind (not_below_slot p i)
    cases hopening with
    | owned _ hl hpriv0 _ _ _ _ _ =>
      obtain ⟨hOold, hsame⟩ := opened_private_behind hS hO hpromote hp h hl hpriv0 hbehind hO'
      rw [hsame]
      refine hI.user p' t' i' u' ?_ hOold hold
      rintro rfl
      simp at hbehind
    | cloned _ _ hpriv0 _ _ _ _ => exact absurd hold (hO.not_through (.inl hpriv0) hw)
    | created hnot _ _ _ _ => cases hp.symm.trans hnot
    | split _ hn hl _ _ _ _ =>
      exact absurd hold (hO.not_through (.inr (child_eq_none_of_large hn hl)) hw)

end

/-! ## Properties of entries that opening a way keeps -/

/-- A property of entries that cloning, promoting and splitting hand on. -/
structure Carried (promote : Entry) (Q : Entry → Prop) : Prop where
  unmark : ∀ e, Q e → Q (e &&& ~~~ privateTable)
  promoted : ∀ e, Q e → Q (e ||| promote)
  clone : ∀ u e, Q e → Q (cloneEntry u (e ||| promote))
  split : ∀ u e, Q (splitEntry u (e ||| promote))
  leaf : ∀ n e leaf j, has e present = true → Q e → Splits n (e ||| promote) leaf → Q (leaf j)

/-- Entries are present. -/
theorem carried_present (hpromote : Promotion promote) :
    Carried promote (fun e => has e present) where
  unmark e he := by rwa [has_unmark e (by decide)]
  promoted e he := by rwa [present_promote hpromote]
  clone u e he := by rwa [present_cloneEntry, present_promote hpromote]
  split u e := present_splitEntry u _
  leaf n e leaf j _ _ hleaf := hleaf.present j

/-- Present entries are user entries once they are promoted. -/
theorem carried_user (hpromote : Promotion promote) : Carried promote
      (fun e => has e present → has (e ||| promote) userSuper) where
  unmark e he hp := by
    rw [has_unmark e (by decide)] at hp
    rw [has_or, has_unmark e (by decide), ← has_or]
    exact he hp
  promoted e he hp := by
    rw [present_promote hpromote] at hp
    rw [has_or, he hp, Bool.true_or]
  clone u e he hp := by
    rw [present_cloneEntry, present_promote hpromote] at hp
    rw [has_or, userSuper_cloneEntry, he hp, Bool.true_or]
  split u e _ := by rw [has_or, userSuper_splitEntry, Bool.true_or]
  leaf n e leaf j hp he hleaf _ := by rw [has_or, hleaf.userSuper, he hp, Bool.true_or]

/-- One entry of a list and what follows it are replaced. -/
private theorem forall_drop_slot {Q : Entry → Prop} {a b b' : List Entry} {e x : Entry} {k : Nat}
    (hk : k ≤ 1) (hhead : Q e → Q x)
    (hrest : (k = 0 ∨ a ≠ [] → Q e) → (∀ y ∈ b, Q y) → ∀ y ∈ b', Q y)
    (h : ∀ y ∈ (a ++ e :: b).drop k, Q y) : ∀ y ∈ (a ++ x :: b').drop k, Q y := by
  rcases Nat.le_one_iff_eq_zero_or_eq_one.mp hk with rfl | rfl
  · simp only [drop_zero, forall_mem_append, forall_mem_cons] at h ⊢
    exact ⟨h.1, hhead h.2.1, hrest (fun _ => h.2.1) h.2.2⟩
  cases a with
  | nil =>
    exact hrest (fun hor => absurd hor (by simp)) h
  | cons c a =>
    simp only [cons_append, drop_succ_cons, drop_zero, forall_mem_append, forall_mem_cons] at h ⊢
    exact ⟨h.1, hhead h.2.1, hrest (fun _ => h.2.1) h.2.2⟩

/-- Opening a present entry keeps such a property on every walk. -/
theorem Opened.carried {Q : Entry → Prop} (hQ : Carried promote Q)
    (hO : Owned R m r p t) (hlen : p.length ≤ 2) (hp : has (m.mem t i) present)
    (h : Opened R m r p t i promote u m') {k : Nat} (hk : k ≤ 1)
    (hw : ∀ e ∈ (m.walk r w).drop k, Q e) : ∀ e ∈ (m'.walk r w).drop k, Q e := by
  by_cases hthrough : p ++ [i] <+: w
  · obtain ⟨x, hx, hwalk, hopening⟩ := h.opening
    have hhead : Q (m.mem t i) → Q x := by
      intro he
      cases hopening with
      | owned _ _ _ hx _ _ _ _ => rw [hx]; exact hQ.promoted _ he
      | cloned _ _ _ hx _ _ _ => rw [hx]; exact hQ.clone u _ he
      | created hnot _ _ _ _ => cases hp.symm.trans hnot
      | split _ _ _ hx _ _ _ => rw [hx]; exact hQ.split u _
    obtain ⟨s, rfl⟩ := through_slot hthrough
    rw [hO.walk_slot] at hw
    cases s with
    | nil =>
      rw [hx]
      refine forall_drop_slot hk hhead ?_ hw
      intro _ _ y hy
      cases hy
    | cons j s =>
      rw [hwalk]
      refine forall_drop_slot hk hhead ?_ hw
      intro he hrest
      cases hopening with
      | owned _ hl _ _ _ hy _ _ =>
        rw [m.below_table (by omega) hp hl] at hrest
        rw [hy]
        exact hrest
      | cloned _ hl _ _ hy _ _ =>
        rw [m.below_table (by omega) hp hl, forall_mem_cons] at hrest
        rw [hy, forall_mem_cons, Machine.below_congr (child_unmark _ _)]
        exact ⟨hQ.unmark _ hrest.1, hrest.2⟩
      | created hnot _ _ _ _ => cases hp.symm.trans hnot
      | split _ hn _ _ hy _ _ =>
        have hpos : m.walk r p ≠ [] := by
          intro hnil
          have hlength := hO.walk_length_eq
          rw [hnil, length_nil] at hlength
          omega
        rw [Machine.below_none (hy.noChild j), forall_mem_cons]
        exact ⟨hQ.leaf _ _ _ j hp (he (.inr hpos)) hy, by simp⟩
  · rw [(h.change.elsewhere r w hO.root (fun hin => hthrough hin.2)).1]
    exact hw

/-- The entry of a slot on the way is one of the walk. -/
theorem Owned.mem_walk (hO : Owned R m r p t) (hw : p ++ [i] <+: w) {k : Nat}
    (hk : k ≤ p.length) : m.mem t i ∈ (m.walk r w).drop k := by
  obtain ⟨s, rfl⟩ := through_slot hw
  rw [hO.walk_slot, drop_append_of_le_length (by rw [hO.walk_length_eq]; exact hk)]
  simp

/-- A way along present entries creates no table. -/
theorem Way.descent (hpromote : Promotion promote) (hS : Space R m)
    (hr : r ∈ R.procs) (h : Way R m r promote p t m') (hlen : p.length ≤ 3)
    (hw : p <+: w) (hall : ∀ e ∈ m.walk r w, has e present) :
    Descent R m r promote p t m' ∧ ∀ e ∈ m'.walk r w, has e present := by
  induction h with
  | root => exact ⟨.root, hall⟩
  | @step p t u i m1 m2 way opened ih =>
    simp only [length_append, length_cons] at hlen
    obtain ⟨down, hall1⟩ := ih (by omega) ((prefix_append p [i]).trans hw)
    have hO := (way.owned hS hr).1
    have hp : has (m1.mem t i) present := hall1 _ (hO.mem_walk hw (Nat.zero_le _))
    exact ⟨.step down hp opened,
      opened.carried (carried_present hpromote) hO (by omega) hp (Nat.zero_le 1) hall1⟩

/-! ## The ledger of an address space -/

/-- Everything that a sequence of calls has to keep for the teardown. -/
structure Ledger (R : Family) (r : Frame) (base : List Frame) (s₀ : Pmm.State) (m : Machine) :
    Prop where
  space : Space R m
  books : ∃ new, Books R r base s₀ m new
  inherits : Inherits R m r

/-- The entries of levels 3 and 2 above `va` that are present are user entries,
or become user entries. -/
def UserAbove (m : Machine) (r : Frame) (promote : Entry) (w : List Index) : Prop :=
  ∀ e ∈ (m.walk r w).drop 1, has e present = true → has (e ||| promote) userSuper = true

section

variable {base : List Frame} {s₀ : Pmm.State}

/-- The ledger is kept, and on short ways what were user entries. -/
def Keeps (R : Family) (r : Frame) (base : List Frame) (s₀ : Pmm.State) (m m' : Machine) : Prop :=
  Ledger R r base s₀ m' ∧ ∀ w, w.length ≤ 3 → UserAbove m r 0#64 w → UserAbove m' r 0#64 w

theorem Keeps.trans {m₀ : Machine} (h : Keeps R r base s₀ m₀ m) (h' : Keeps R r base s₀ m m') :
    Keeps R r base s₀ m₀ m' :=
  ⟨h'.1, fun w hw huser => h'.2 w hw (h.2 w hw huser)⟩

variable (hr : r ∈ R.procs) (hkernel : R.kernel ≠ r)

include hr hkernel

theorem Descent.ledger (hpromote : Promotion promote)
    (hL : Ledger R r base s₀ m) (h : Descent R m r promote p t m') (hlen : p.length ≤ 3)
    {w : List Index} (hw : p <+: w) (huser : UserAbove m r promote w) :
    Ledger R r base s₀ m' ∧ ∀ w', UserAbove m r promote w' → UserAbove m' r promote w' := by
  induction h with
  | root => exact ⟨hL, fun _ h => h⟩
  | @step p t u i m1 m2 down hp opened ih =>
    simp only [length_append, length_cons] at hlen
    obtain ⟨hL1, hkeep⟩ := ih (by omega) ((prefix_append p [i]).trans hw)
    have hO := (down.way.owned hL.space hr).1
    obtain ⟨new, hB⟩ := hL1.books
    refine ⟨⟨opened.change.space, hB.opened hL1.space hpromote hO (by omega) hp opened,
      hL1.inherits.opened hL1.space hkernel hO hpromote (by omega) hp opened ?_⟩, ?_⟩
    · intro hne _ _
      have hpos : 1 ≤ p.length := length_pos_iff.mpr hne
      exact hkeep w huser _ (hO.mem_walk hw hpos) hp
    · intro w' hw'
      exact opened.carried (carried_user hpromote) hO (by omega) hp (Nat.le_refl 1) (hkeep w' hw')

/-- A leaf is written. -/
theorem Ledger.leaf (hL : Ledger R r base s₀ m) (hO : Owned R m r p t) (hlen : p.length = 3)
    (e : Entry) : Keeps R r base s₀ m (m.setEntry ⟨t, i⟩ e) := by
  have hnone : child (4 - p.length) e = none := by
    rw [hlen]
    exact child_one e
  have htop : p = [] → has e present → has e largePage = false :=
    fun hnil => by rw [hnil] at hlen; cases hlen
  obtain ⟨new, hB⟩ := hL.books
  have hchange : Change R m r (p ++ [i]) (m.setEntry ⟨t, i⟩ e) := .leaf hL.space hO hnone htop
  refine ⟨⟨hchange.space, ⟨new, hB.leaf hL.space hO hlen e⟩,
    hL.inherits.leaf hL.space hkernel hO hnone htop⟩, ?_⟩
  intro w hw huser
  unfold UserAbove
  rw [(hchange.elsewhere r w (.inr hr) ?_).1]
  · exact huser
  · rintro ⟨-, hin⟩
    have := hin.length_le
    simp only [length_append, length_cons] at this
    omega

/-- An empty table is detached. -/
theorem Ledger.detach (hL : Ledger R r base s₀ m) (hO : Owned R m r p t)
    (hU : Owned R m r (p ++ [i]) u) (hlen : p.length ≤ 2) :
    Keeps R r base s₀ m (detachIfEmpty u ⟨t, i⟩ m) := by
  obtain ⟨new, hB⟩ := hL.books
  have hS := hL.space
  have hT := detachIfEmpty_spec hS hO hU hlen
  have hstep : Inherits R (detachIfEmpty u ⟨t, i⟩ m) r ∧
      ∀ w, UserAbove m r 0#64 w → UserAbove (detachIfEmpty u ⟨t, i⟩ m) r 0#64 w := by
    unfold detachIfEmpty
    split
    case isFalse => exact ⟨hL.inherits, fun _ h => h⟩
    case isTrue _ =>
      have hout := (detached_deferred hS hO hU).2.1
      refine ⟨(hL.inherits.leaf hS hkernel hO (child_zero _)
        fun _ _ => has_zero _).outside hout, ?_⟩
      intro w huser
      unfold UserAbove
      rw [(hout.walk (.inr hr) w).1]
      by_cases hthrough : p ++ [i] <+: w
      · obtain ⟨s, rfl⟩ := through_slot hthrough
        unfold UserAbove at huser
        rw [hO.walk_slot] at huser
        rw [(detached_walk hS hO s).1]
        refine forall_drop_slot (Nat.le_refl 1) ?_ ?_ huser
        · intro _ hp
          cases hp
        · intro _ _ y hy
          cases hy
      · rw [((detached_change hS hO).elsewhere r w (.inr hr) fun hin => hthrough hin.2).1]
        exact huser
  exact ⟨⟨hT.space, hB.detach hS hO hU, hstep.1⟩, fun w _ => hstep.2 w⟩

omit hr hkernel in
/-- Every opened entry takes at most one table. -/
theorem Descent.supplied {promote : Entry} (h : Descent R m r promote p t m') (n : Nat)
    (hs : supplies m.pmm (n + p.length)) : supplies m'.pmm n := by
  induction h generalizing n with
  | root => exact hs
  | @step p t u i m1 m2 down hp opened ih =>
    have hbefore : supplies m1.pmm (n + 1) := by
      apply ih
      rw [length_append] at hs
      rw [Nat.add_right_comm]
      exact hs
    obtain ⟨x, -, -, hopening⟩ := opened.opening
    cases hopening with
    | owned _ _ _ _ _ _ _ hpmm =>
      rw [hpmm]
      exact supplies_of_succ hbefore
    | cloned _ _ _ _ _ _ hgrant => rw [← supplies_succ hgrant.taken]; exact hbefore
    | created hnot _ _ _ _ => cases hp.symm.trans hnot
    | split _ _ _ _ _ _ hgrant => rw [← supplies_succ hgrant.taken]; exact hbefore

omit hkernel in
/-- With all entries above the leaf present and tables to be had, the way to
`va` does not stop. -/
theorem StoppedOn.impossible {promote : Entry} (hpromote : Promotion promote) (hS : Space R m)
    {va : BitVec 64} (hall : ∀ e ∈ m.walk r (upperPath va), has e present)
    (hs : supplies m.pmm 3) : ¬ StoppedOn R m r va promote m' := by
  rintro ⟨p, t, i, m1, way, hlen, hpath, hstop⟩
  have hupper := onUpperPath hlen hpath
  have hp0 : p <+: upperPath va := (prefix_append p [i]).trans hupper
  obtain ⟨down, hall1⟩ := way.descent hpromote hS hr (by omega) hp0 hall
  have hO := (way.owned hS hr).1
  have hp : has (m1.mem t i) present := hall1 _ (hO.mem_walk hupper (Nat.zero_le _))
  cases hstop with
  | absent hnot => rw [hp] at hnot; cases hnot
  | ensured _ hwhy =>
    have hone : supplies m1.pmm 1 := by
      apply down.supplied
      exact supplies_le hs (by omega)
    rw [supplies_none (hwhy hp).1] at hone
    cases hone

/-- **`MapPageInto`** keeps the ledger of an address space when all entries
above the leaf are present, those of levels 3 and 2 are user entries or get
promoted to it, and no table allocation fails. -/
theorem mapPageInto_ledger (hL : Ledger R r base s₀ m) (va physAddr flags : BitVec 64)
    (hscope : R.scope (pml4Index va)) (hall : ∀ e ∈ m.walk r (upperPath va), has e present)
    (huser : UserAbove m r ((flags &&& userSuper) ||| (flags &&& readWrite)) (upperPath va))
    (hs : supplies m.pmm 3) : Ledger R r base s₀ ((mapPageInto r va physAddr flags).exec m) := by
  have hpromote := promotion_of_flags flags
  apply Cmd.Ends.exec
  refine (mapPageInto_spec hL.space hr va physAddr flags hscope).mono ?_ ?_
  · rintro _ m' ⟨pt, m1, way, hm'⟩
    have hO := (way.owned hL.space hr).1
    obtain ⟨down, -⟩ := way.descent hpromote hL.space hr (by simp) prefix_rfl hall
    have hL1 := (down.ledger hr hkernel hpromote hL (by simp) prefix_rfl huser).1
    rw [hm']
    exact (hL1.leaf hr hkernel hO rfl _).1
  · intro m' hstop
    exact absurd hstop (StoppedOn.impossible hr hpromote hL.space hall hs)

omit hr hkernel in
/-- A failed table allocation leaves the ledger alone. -/
theorem Ledger.tableFailed (hL : Ledger R r base s₀ m) : Ledger R r base s₀ m.tableFailed := by
  obtain ⟨new, hB⟩ := hL.books
  have hout : Outside R m m.tableFailed := ⟨rfl, rfl, fun _ _ _ => rfl⟩
  refine ⟨(Change.tableFailed (r := r) (w := []) hL.space).space, ⟨new, ?_⟩,
    hL.inherits.outside hout⟩
  refine hB.relabel rfl rfl (fun f => ?_) hB.batch
  unfold Held
  simp only [hout.owned_iff]
  rfl

/-- **`unmapLeaf`** keeps the ledger when the entries of levels 3 and 2 above
the leaf are user entries. -/
theorem unmapLeaf_ledger (hL : Ledger R r base s₀ m) (va : BitVec 64)
    (hscope : R.scope (pml4Index va)) (huser : UserAbove m r 0#64 (upperPath va)) :
    Keeps R r base s₀ m ((unmapLeaf r va).exec m) := by
  apply Cmd.Ends.exec
  refine (unmapLeaf_steps hL.space hr va hscope).mono ?_ ?_
  · rintro _ m' ⟨pdpt, pd, pt, m1, hdown, hm'⟩
    obtain ⟨hL1, hkeep1⟩ := hdown.down.ledger hr hkernel promotion_zero hL (by simp)
      prefix_rfl huser
    have hK1 : Keeps R r base s₀ m m1 := ⟨hL1, fun w _ => hkeep1 w⟩
    have hK2 := hL1.leaf (i := ptIndex va) hr hkernel hdown.pt rfl 0#64
    obtain ⟨-, hpdpt, hpd, hpt⟩ := hdown.cleared hL.space hr
    obtain ⟨hT1, hT2, -⟩ := detachAll_spec hK2.1.space hr hpdpt hpd hpt
    have hshort : ∀ {a b : List Index}, b.length < a.length → ¬ a <+: b :=
      fun hlt hpre => absurd hpre.length_le (by omega)
    have hK3 := hK2.1.detach hr hkernel hpd
      (show Owned R _ r ([pml4Index va, pdptIndex va] ++ [pdIndex va]) pt from hpt) (by simp)
    have hpdpt3 := hT1.owned _ _ (hshort (by simp)) hpdpt
    have hpd3 := hT1.owned _ _ (hshort (by simp)) hpd
    have hK4 := hK3.1.detach hr hkernel hpdpt3
      (show Owned R _ r ([pml4Index va] ++ [pdptIndex va]) pd from hpd3) (by simp)
    have hpdpt4 := hT2.owned _ _ (hshort (by simp)) hpdpt3
    have hK5 := hK4.1.detach hr hkernel (.ofRoot hr)
      (show Owned R _ r ([] ++ [pml4Index va]) pdpt from hpdpt4) (by simp)
    rw [hm']
    exact (((hK1.trans hK2).trans hK3).trans hK4).trans hK5
  · rintro m' ⟨p, t, i, m1, down, hlen, hpath, hend⟩
    have hupper := (prefix_append p [i]).trans (onUpperPath hlen hpath)
    obtain ⟨hL1, hkeep1⟩ := down.ledger hr hkernel promotion_zero hL (by omega) hupper huser
    rcases hend with ⟨-, rfl⟩ | rfl
    · exact ⟨hL1, fun w _ => hkeep1 w⟩
    · exact ⟨hL1.tableFailed, fun w _ => hkeep1 w⟩

section

variable (hL : Ledger R r base s₀ m) (virtualBase : BitVec 64) (pageCount : Nat)
    (hscope : ∀ k, k < pageCount → R.scope (pml4Index (virtualBase + BitVec.ofNat 64 (k * 4096))))
    (huser : ∀ k, k < pageCount → UserAbove m r 0#64
      (upperPath (virtualBase + BitVec.ofNat 64 (k * 4096))))

include hL virtualBase pageCount hscope huser

/-- The loop of `UnmapRangeFrom`. -/
theorem unmapPages_ledger : Keeps R r base s₀ m ((List.range pageCount).foldl (fun m i =>
    (unmapLeaf r (virtualBase + BitVec.ofNat 64 (i * 4096))).exec m) m) := by
  induction pageCount with
  | zero => exact ⟨hL, fun _ _ h => h⟩
  | succ n ih =>
    have hK := ih (fun k hk => hscope k (by omega)) (fun k hk => huser k (by omega))
    rw [range_succ, foldl_append]
    exact hK.trans (unmapLeaf_ledger hr hkernel hK.1 _ (hscope n (by omega))
      (hK.2 _ (Nat.le_refl 3) (huser n (by omega))))

/-- **`UnmapRangeFrom`** keeps the ledger under the same condition on every
page of the range, and leaves no table in the batch. -/
theorem unmapRangeFrom_ledger : Ledger R r base s₀ (unmapRangeFrom m r virtualBase pageCount) := by
  have hne : r ≠ 0 := (hL.space.backed r ⟨r, [], .inr hr, rfl⟩).nonzero
  obtain ⟨hL1, -⟩ := unmapPages_ledger hr hkernel hL virtualBase pageCount hscope huser
  unfold unmapRangeFrom
  rw [if_neg hne]
  obtain ⟨hS', -, hout, -⟩ := finishBatch_spec hL1.space
  obtain ⟨new, hB⟩ := hL1.books
  exact ⟨hS', ⟨_, hB.finish hL1.space⟩, hL1.inherits.outside hout⟩

end

end

end InstantOS.Vmm

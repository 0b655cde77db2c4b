import InstantOS.Base.Returns
import InstantOS.Fs.RamFs
import Mathlib.Data.List.Perm.Subperm

/-!
# The tree of a RAM file system

The pointers of the allocated nodes form a tree: `Tree` relates them to the list of children
of every directory.  Between two steps of an operation one node can be loose: allocated, but
no child of any directory.  Each operation is a sequence of the four changes below.
-/

namespace InstantOS.RamFs

open IntrusiveList Function List

/-- A name that a directory can hold. -/
def ValidName (name : Name) : Prop := name ≠ [] ∧ isDotOrDotDot name = false

structure Tree (loose : Option Ptr) (s : Volume) (kids : Ptr → List Ptr) : Prop where
  nodup : s.nodes.Nodup
  bound : ∀ p ∈ s.nodes, p < s.fresh
  root : s.root ∈ s.nodes ∧ s.parent s.root = none ∧ (s.node s.root).type = .directory
  linked : ∀ d ∈ s.nodes, Linked s.nextSibling (s.firstChild d) (kids d)
  kid : ∀ d ∈ s.nodes, ∀ c ∈ kids d, c ∈ s.nodes ∧ s.parent c = some d
  placed : ∀ p ∈ s.nodes, p ≠ s.root → loose ≠ some p → ∃ d ∈ s.nodes, p ∈ kids d
  unplaced : ∀ p, loose = some p → p ∈ s.nodes ∧ p ≠ s.root ∧ ∀ d ∈ s.nodes, p ∉ kids d
  leaf : ∀ p ∈ s.nodes, (s.node p).type ≠ .directory → kids p = []
  chain : ∀ p ∈ s.nodes, ∃ l, Linked s.parent (some p) l ∧ ∀ a ∈ l, a ∈ s.nodes
  names : ∀ d ∈ s.nodes, (kids d).Pairwise fun a b => (s.node a).name ≠ (s.node b).name
  named : ∀ p ∈ s.nodes, p ≠ s.root → loose ≠ some p → ValidName (s.node p).name

namespace Tree

variable {loose : Option Ptr} {s s' : Volume} {kids : Ptr → List Ptr} {c d p : Ptr}

/-! ## What the tree says -/

section

variable (h : Tree loose s kids)

include h

theorem kids_nodup (hd : d ∈ s.nodes) : (kids d).Nodup := (h.linked d hd).nodup

/-- A list of nodes without repetition is no longer than there are addresses. -/
theorem length_le {l : List Ptr} (hnodup : l.Nodup) (hmem : ∀ p ∈ l, p ∈ s.nodes) :
    l.length ≤ s.fresh := by
  have hsub : l ⊆ range s.fresh := fun p hp => mem_range.mpr (h.bound p (hmem p hp))
  simpa using (subperm_of_subset hnodup hsub).length_le

section

variable (hd : d ∈ s.nodes)

include hd

theorem kids_length : (kids d).length ≤ s.fresh :=
  h.length_le (h.kids_nodup hd) fun c hc => (h.kid d hd c hc).1

/-- A node is a child of one directory only. -/
theorem kid_unique {d' : Ptr} (hd' : d' ∈ s.nodes) (hc : c ∈ kids d) (hc' : c ∈ kids d') : d = d' :=
  Option.some.inj ((h.kid d hd c hc).2.symm.trans (h.kid d' hd' c hc').2)

theorem kid_ne_root (hc : c ∈ kids d) : c ≠ s.root := by
  rintro rfl
  have hparent := (h.kid d hd _ hc).2
  rw [h.root.2.1] at hparent
  cases hparent

theorem dir_of_kid (hc : c ∈ kids d) : (s.node d).type = .directory := by
  by_contra htype
  rw [h.leaf d hd htype] at hc
  cases hc

/-- A directory has no first child exactly if it has no children. -/
theorem firstChild_none : s.firstChild d = none ↔ kids d = [] := by
  have hlinked := h.linked d hd
  cases hkids : kids d with
  | nil =>
    rw [hkids] at hlinked
    exact ⟨fun _ => rfl, fun _ => hlinked⟩
  | cons a l =>
    rw [hkids] at hlinked
    constructor
    · intro hnone
      rw [hlinked.1] at hnone
      cases hnone
    · intro hnil
      cases hnil

end

end

end Tree

/-! ## The four changes -/

/-- The nodes keep their names and types, and no node comes or goes. -/
structure SameNodes (s s' : Volume) : Prop where
  nodes : s'.nodes = s.nodes
  root : s'.root = s.root
  fresh : s.fresh ≤ s'.fresh
  name : ∀ p ∈ s.nodes, (s'.node p).name = (s.node p).name
  type : ∀ p ∈ s.nodes, (s'.node p).type = (s.node p).type

/-- Nor does a pointer between them change. -/
structure SameShape (s s' : Volume) : Prop extends SameNodes s s' where
  parent : s'.parent = s.parent
  firstChild : s'.firstChild = s.firstChild
  nextSibling : s'.nextSibling = s.nextSibling

namespace Tree

variable {loose : Option Ptr} {s s' : Volume} {kids : Ptr → List Ptr} {c d p : Ptr}

theorem congr (h : Tree loose s kids) (hs : SameShape s s') : Tree loose s' kids where
  nodup := hs.nodes ▸ h.nodup
  bound p hp := by
    rw [hs.nodes] at hp
    exact Nat.lt_of_lt_of_le (h.bound p hp) hs.fresh
  root := by
    rw [hs.nodes, hs.root, hs.parent, hs.type _ h.root.1]
    exact h.root
  linked := by
    rw [hs.nodes, hs.nextSibling, hs.firstChild]
    exact h.linked
  kid := by
    rw [hs.nodes, hs.parent]
    exact h.kid
  placed := by
    rw [hs.nodes, hs.root]
    exact h.placed
  unplaced := by
    rw [hs.nodes, hs.root]
    exact h.unplaced
  leaf p hp := by
    rw [hs.nodes] at hp
    rw [hs.type p hp]
    exact h.leaf p hp
  chain := by
    rw [hs.nodes, hs.parent]
    exact h.chain
  names d hd := by
    rw [hs.nodes] at hd
    refine (h.names d hd).imp_of_mem fun {a b} ha hb hne => ?_
    rw [hs.name a (h.kid d hd a ha).1, hs.name b (h.kid d hd b hb).1]
    exact hne
  named p hp := by
    rw [hs.nodes] at hp
    rw [hs.name p hp, hs.root]
    exact h.named p hp

/-- A child is taken out of its directory's list and is loose. -/
theorem detach (h : Tree none s kids) (hd : d ∈ s.nodes) {pre post : List Ptr}
    (hkids : kids d = pre ++ c :: post) {next first : Ptr → Option Ptr}
    (hlinked : Linked next (first d) (pre ++ post))
    (hnext : ∀ x, x ∉ kids d → next x = s.nextSibling x)
    (hfirst : ∀ x, x ≠ d → first x = s.firstChild x) :
    Tree (some c) { s with nextSibling := next, firstChild := first }
      (update kids d (pre ++ post)) := by
  have hc : c ∈ kids d := by simp [hkids]
  have hcnot : c ∉ pre ++ post := (hkids ▸ h.linked d hd).notMem_mid
  have hmem : ∀ x ∈ s.nodes, ∀ a, a ∈ update kids d (pre ++ post) x ↔ a ∈ kids x ∧ a ≠ c := by
    intro x hx a
    by_cases hxd : x = d
    · grind
    rw [update_of_ne hxd]
    refine ⟨fun ha => ⟨ha, ?_⟩, And.left⟩
    rintro rfl
    exact hxd (h.kid_unique hx hd ha hc)
  refine { h with
    linked := fun x hx => ?_
    kid := fun x hx a ha => h.kid x hx a ((hmem x hx a).mp ha).1
    placed := fun p hp hroot hne => ?_
    unplaced := fun p hp => ?_
    leaf := fun p hp htype => ?_
    names := fun x hx => ?_
    named := fun p hp hroot _ => h.named p hp hroot nofun }
  · by_cases hxd : x = d
    · subst hxd
      rw [update_self]
      exact hlinked
    dsimp only
    rw [update_of_ne hxd, hfirst x hxd]
    exact (h.linked x hx).frame fun a ha =>
      hnext a fun had => hxd (h.kid_unique hx hd ha had)
  · obtain ⟨x, hx, hpx⟩ := h.placed p hp hroot nofun
    exact ⟨x, hx, (hmem x hx p).mpr ⟨hpx, fun heq => hne (heq ▸ rfl)⟩⟩
  · cases hp
    exact ⟨(h.kid d hd c hc).1, h.kid_ne_root hd hc, fun x hx hcx => ((hmem x hx c).mp hcx).2 rfl⟩
  · have hpd : p ≠ d := by
      rintro rfl
      exact htype (h.dir_of_kid hp hc)
    rw [update_of_ne hpd]
    exact h.leaf p hp htype
  · by_cases hxd : x = d
    · subst hxd
      rw [update_self]
      refine (h.names x hx).sublist ?_
      rw [hkids]
      exact (sublist_cons_self c post).append_left pre
    · rw [update_of_ne hxd]
      exact h.names x hx

/-- Only children have a node above them. -/
theorem mem_kids_of_parent (h : Tree loose s kids) (hp : p ∈ s.nodes) (hne : loose ≠ some p)
    (hparent : s.parent p = some c) : p ∈ kids c := by
  have hroot : p ≠ s.root := by
    rintro rfl
    rw [h.root.2.1] at hparent
    cases hparent
  obtain ⟨d, hd, hpd⟩ := h.placed p hp hroot hne
  have hsame : d = c := Option.some.inj ((h.kid d hd p hpd).2.symm.trans hparent)
  exact hsame ▸ hpd

/-- The way up from a node leads through a leaf only if it starts there. -/
theorem notMem_chain_of_leaf (h : Tree loose s kids) (hloose : ∀ x, loose = some x → x = c)
    (hleaf : kids c = []) (hp : p ∈ s.nodes) (hne : p ≠ c) {l : List Ptr}
    (hl : Linked s.parent (some p) l) : c ∉ l := by
  obtain ⟨l', hl', hmem⟩ := h.chain p hp
  rw [← hl.unique hl'] at hmem
  intro hc
  obtain ⟨pre, post, rfl⟩ := append_of_mem hc
  cases hpre : pre.getLast? with
  | none =>
    rw [getLast?_eq_none_iff] at hpre
    subst hpre
    exact hne (Option.some.inj hl.1)
  | some x =>
    -- the node before the leaf on the way is a child of the leaf
    obtain ⟨pre', rfl⟩ := getLast?_eq_some_iff.mp hpre
    have hx : x ∈ s.nodes := hmem x (by simp)
    have hxc : x ≠ c := by
      rintro rfl
      have hnodup := hl.nodup
      rw [nodup_append] at hnodup
      exact hnodup.2.2 x (by simp) x mem_cons_self rfl
    have hparent : s.parent x = some c := by
      rw [append_assoc] at hl
      exact hl.next_mid
    have hkid := h.mem_kids_of_parent hx (fun heq => hxc (hloose x heq)) hparent
    rw [hleaf] at hkid
    cases hkid

/-- A loose node becomes the first child of a directory that is not below it. -/
theorem attach (h : Tree (some c) s kids) (hd : d ∈ s.nodes) (hdir : (s.node d).type = .directory)
    (habove : ∀ l, Linked s.parent (some d) l → c ∉ l) (hname : ValidName (s.node c).name)
    (hfree : ∀ a ∈ kids d, (s.node c).name ≠ (s.node a).name) :
    Tree none (insertChild s d c) (update kids d (c :: kids d)) := by
  obtain ⟨hc, hcroot, hcnot⟩ := h.unplaced c rfl
  have hmem : ∀ x a, a ∈ update kids d (c :: kids d) x ↔ (x = d ∧ a = c) ∨ a ∈ kids x := by
    intro x a
    by_cases hxd : x = d
    · subst hxd
      simp
    · simp [hxd]
  refine { h with
    root := ⟨h.root.1, (update_of_ne hcroot.symm ..).trans h.root.2.1, h.root.2.2⟩
    linked := fun x hx => ?_
    kid := fun x hx a ha => ?_
    placed := fun p hp hroot _ => ?_
    unplaced := nofun
    leaf := fun p hp htype => ?_
    chain := fun p hp => ?_
    names := fun x hx => ?_
    named := fun p hp hroot _ => ?_ }
  · change Linked (update s.nextSibling c (s.firstChild d)) (update s.firstChild d (some c) x) _
    by_cases hxd : x = d
    · subst hxd
      rw [update_self, update_self]
      exact (h.linked x hx).push (hcnot x hx)
    · rw [update_of_ne hxd, update_of_ne hxd]
      exact (h.linked x hx).update_of_notMem (hcnot x hx) _
  · change a ∈ s.nodes ∧ update s.parent c (some d) a = some x
    rcases (hmem x a).mp ha with ⟨rfl, rfl⟩ | ha
    · exact ⟨hc, update_self ..⟩
    · rw [update_of_ne (ne_of_mem_of_not_mem ha (hcnot x hx))]
      exact h.kid x hx a ha
  · by_cases hpc : p = c
    · exact ⟨d, hd, (hmem d p).mpr (.inl ⟨rfl, hpc⟩)⟩
    · obtain ⟨x, hx, hpx⟩ := h.placed p hp hroot fun heq => hpc (Option.some.inj heq).symm
      exact ⟨x, hx, (hmem x p).mpr (.inr hpx)⟩
  · have hpd : p ≠ d := by
      rintro rfl
      exact htype hdir
    rw [update_of_ne hpd]
    exact h.leaf p hp htype
  · obtain ⟨l, hl, hin⟩ := h.chain p hp
    obtain ⟨up, hup, hupmem⟩ := h.chain d hd
    by_cases hcl : c ∈ l
    · -- from the node on the way goes up from the directory
      obtain ⟨pre, post, rfl⟩ := append_of_mem hcl
      refine ⟨pre ++ c :: up, hl.redirect (hup.update_of_notMem (habove up hup) _), ?_⟩
      intro a ha
      simp only [mem_append, mem_cons] at ha hin
      rcases ha with ha | rfl | ha
      · exact hin a (.inl ha)
      · exact hc
      · exact hupmem a ha
    · exact ⟨l, hl.update_of_notMem hcl _, hin⟩
  · by_cases hxd : x = d
    · subst hxd
      rw [update_self]
      exact pairwise_cons.mpr ⟨hfree, h.names x hx⟩
    · rw [update_of_ne hxd]
      exact h.names x hx
  · by_cases hpc : p = c
    · exact hpc ▸ hname
    · exact h.named p hp hroot fun heq => hpc (Option.some.inj heq).symm

/-- A loose node without children is gone. -/
theorem drop (h : Tree (some c) s kids) (hleaf : kids c = []) :
    Tree none { s with nodes := s.nodes.erase c } kids := by
  have hmem : ∀ {p}, p ∈ s.nodes.erase c ↔ p ≠ c ∧ p ∈ s.nodes := h.nodup.mem_erase_iff
  have hin : ∀ {p}, p ∈ s.nodes.erase c → p ∈ s.nodes := fun hp => (hmem.mp hp).2
  have hne : ∀ {p}, p ∈ s.nodes.erase c → some c ≠ some p := fun hp heq =>
    (hmem.mp hp).1 (Option.some.inj heq).symm
  obtain ⟨hc, hcroot, hcnot⟩ := h.unplaced c rfl
  exact
    { nodup := h.nodup.erase c
      bound := fun p hp => h.bound p (hin hp)
      root := ⟨hmem.mpr ⟨hcroot.symm, h.root.1⟩, h.root.2⟩
      linked := fun d hd => h.linked d (hin hd)
      kid := fun d hd a ha => by
        obtain ⟨ha', hparent⟩ := h.kid d (hin hd) a ha
        exact ⟨hmem.mpr ⟨ne_of_mem_of_not_mem ha (hcnot d (hin hd)), ha'⟩, hparent⟩
      placed := fun p hp hroot _ => by
        obtain ⟨d, hd, hpd⟩ := h.placed p (hin hp) hroot (hne hp)
        refine ⟨d, hmem.mpr ⟨?_, hd⟩, hpd⟩
        rintro rfl
        rw [hleaf] at hpd
        cases hpd
      unplaced := nofun
      leaf := fun p hp => h.leaf p (hin hp)
      chain := fun p hp => by
        obtain ⟨l, hl, hl'⟩ := h.chain p (hin hp)
        have hcl := h.notMem_chain_of_leaf (fun x hx => (Option.some.inj hx).symm) hleaf (hin hp)
          (hmem.mp hp).1 hl
        exact ⟨l, hl, fun a ha => hmem.mpr ⟨ne_of_mem_of_not_mem ha hcl, hl' a ha⟩⟩
      names := fun d hd => h.names d (hin hd)
      named := fun p hp hroot _ => h.named p (hin hp) hroot (hne hp) }

theorem fresh_notMem (h : Tree loose s kids) : s.fresh ∉ s.nodes := fun hp =>
  Nat.lt_irrefl _ (h.bound _ hp)

/-- A new node is loose. -/
theorem add (h : Tree none s kids) (n : Node) :
    Tree (some s.fresh) (s.addNode n) (update kids s.fresh []) := by
  have hfresh := h.fresh_notMem
  have hne : ∀ {p}, p ∈ s.nodes → p ≠ s.fresh := fun hp => ne_of_mem_of_not_mem hp hfresh
  have hkid : ∀ d ∈ s.nodes, s.fresh ∉ kids d := fun d hd hk => hfresh (h.kid d hd _ hk).1
  have hold : ∀ {p}, p ∈ s.fresh :: s.nodes → some s.fresh ≠ some p → p ∈ s.nodes := fun hp hne =>
    (mem_cons.mp hp).resolve_left fun heq => hne (heq ▸ rfl)
  have hnode : ∀ {p}, p ∈ s.nodes → (s.addNode n).node p = s.node p := fun hp =>
    update_of_ne (hne hp) ..
  exact
    { nodup := nodup_cons.mpr ⟨hfresh, h.nodup⟩
      bound := fun p hp => by
        rcases mem_cons.mp hp with rfl | hp
        · exact Nat.lt_succ_self _
        · exact Nat.lt_succ_of_lt (h.bound p hp)
      root := by
        refine ⟨mem_cons_of_mem _ h.root.1, ?_, ?_⟩
        · exact (update_of_ne (hne h.root.1) ..).trans h.root.2.1
        · exact (congrArg Node.type (hnode h.root.1)).trans h.root.2.2
      linked := fun d hd => by
        change Linked (update s.nextSibling s.fresh none) (update s.firstChild s.fresh none d) _
        rcases mem_cons.mp hd with rfl | hd
        · rw [update_self, update_self]
          rfl
        · rw [update_of_ne (hne hd), update_of_ne (hne hd)]
          exact (h.linked d hd).update_of_notMem (hkid d hd) _
      kid := fun d hd a ha => by
        rcases mem_cons.mp hd with rfl | hd
        · rw [update_self] at ha
          cases ha
        · rw [update_of_ne (hne hd)] at ha
          obtain ⟨ha', hparent⟩ := h.kid d hd a ha
          exact ⟨mem_cons_of_mem _ ha', (update_of_ne (hne ha') ..).trans hparent⟩
      placed := fun p hp hroot hloose => by
        obtain ⟨d, hd, hpd⟩ := h.placed p (hold hp hloose) hroot nofun
        refine ⟨d, mem_cons_of_mem _ hd, ?_⟩
        rw [update_of_ne (hne hd)]
        exact hpd
      unplaced := fun p hp => by
        cases hp
        refine ⟨mem_cons_self, (hne h.root.1).symm, fun d hd hk => ?_⟩
        rcases mem_cons.mp hd with rfl | hd
        · rw [update_self] at hk
          cases hk
        · rw [update_of_ne (hne hd)] at hk
          exact hkid d hd hk
      leaf := fun p hp htype => by
        rcases mem_cons.mp hp with rfl | hp
        · exact update_self ..
        · rw [hnode hp] at htype
          rw [update_of_ne (hne hp)]
          exact h.leaf p hp htype
      chain := fun p hp => by
        change ∃ l, Linked (update s.parent s.fresh none) (some p) l ∧
          ∀ a ∈ l, a ∈ s.fresh :: s.nodes
        rcases mem_cons.mp hp with rfl | hp
        · refine ⟨[s.fresh], ⟨rfl, ?_⟩, fun a ha => ?_⟩
          · rw [update_self]
            rfl
          · rw [mem_singleton.mp ha]
            exact mem_cons_self
        · obtain ⟨l, hl, hmem⟩ := h.chain p hp
          exact ⟨l, hl.update_of_notMem (fun hf => hfresh (hmem _ hf)) _,
            fun a ha => mem_cons_of_mem _ (hmem a ha)⟩
      names := fun d hd => by
        rcases mem_cons.mp hd with rfl | hd
        · rw [update_self]
          exact .nil
        rw [update_of_ne (hne hd)]
        refine (h.names d hd).imp_of_mem fun {a b} ha hb hab => ?_
        rw [hnode (h.kid d hd a ha).1, hnode (h.kid d hd b hb).1]
        exact hab
      named := fun p hp hroot hloose => by
        have hp := hold hp hloose
        rw [hnode hp]
        exact h.named p hp hroot nofun }

end Tree

end InstantOS.RamFs

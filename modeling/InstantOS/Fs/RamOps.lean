import InstantOS.Fs.RamTree
import InstantOS.Fs.RamLinks

/-!
# The operations keep the tree

One specification for each operation on directories: it returns, the tree and the link counts
are right again, a call that fails changes nothing, and of the nodes that were there only the
one that the call is about is gone.
-/

namespace InstantOS.RamFs

open IntrusiveList Function List Option

def Sound (s : Volume) : Prop := ∃ kids, Tree none s kids ∧ Data s

/-- Nothing that is allocated is another. -/
structure Unchanged (s s' : Volume) : Prop where
  nodes : s'.nodes = s.nodes
  files : s'.files = s.files
  texts : s'.texts = s.texts
  root : s'.root = s.root
  fresh : s.fresh ≤ s'.fresh
  node : ∀ p ∈ s.nodes, s'.node p = s.node p
  parent : ∀ p ∈ s.nodes, s'.parent p = s.parent p
  firstChild : ∀ p ∈ s.nodes, s'.firstChild p = s.firstChild p
  nextSibling : ∀ p ∈ s.nodes, s'.nextSibling p = s.nextSibling p
  file : ∀ f ∈ s.files, s'.file f = s.file f
  text : ∀ t ∈ s.texts, s'.text t = s.text t

/-- The nodes but for those that are gone have the data they had, and the files that are left
their contents; a file has no more names than before unless a name was linked to it. -/
structure Kept (gone : Ptr → Prop) (linked : Prop) (s s' : Volume) : Prop where
  fresh : s.fresh ≤ s'.fresh
  nodes : ∀ p ∈ s.nodes, ¬ gone p → p ∈ s'.nodes
  node : ∀ p < s.fresh, (s'.node p).type = (s.node p).type ∧ (s'.node p).data = (s.node p).data
  contents : ∀ f < s.fresh, (s'.file f).contents = (s.file f).contents
  links : ∀ f ∈ s'.files, (f ∈ s.files ∧ (linked ∨ (s'.file f).links ≤ (s.file f).links)) ∨
    (s'.file f).links ≤ 1

/-- What every call does: a call that fails changes nothing. -/
structure Outcome (gone : Ptr → Prop) (linked failed : Prop) (s s' : Volume) : Prop where
  sound : Sound s'
  unchanged : failed → Unchanged s s'
  kept : Kept gone linked s s'

variable {s s' s'' : Volume} {env : Env} {kids : Ptr → List Ptr} {c d p : Ptr} {name : Name}
  {loose : Option Ptr} {gone gone' : Ptr → Prop} {linked failed : Prop}

theorem Unchanged.refl (s : Volume) : Unchanged s s := by
  constructor <;> simp

theorem Kept.refl (s : Volume) : Kept gone linked s s where
  fresh := Nat.le_refl _
  nodes _ hp _ := hp
  node _ _ := ⟨rfl, rfl⟩
  contents _ _ := rfl
  links _ hf := .inl ⟨hf, .inr (Nat.le_refl _)⟩

theorem Outcome.refl (h : Sound s) : Outcome gone linked failed s s :=
  ⟨h, fun _ => .refl s, .refl s⟩

section

variable (h : Kept gone linked s s')

include h

theorem Kept.trans (h' : Kept gone' False s' s'') :
    Kept (fun p => gone p ∨ gone' p) linked s s'' where
  fresh := Nat.le_trans h.fresh h'.fresh
  nodes p hp hne := h'.nodes p (h.nodes p hp fun hg => hne (.inl hg)) fun hg => hne (.inr hg)
  node p hp := by
    obtain ⟨htype, hdata⟩ := h'.node p (Nat.lt_of_lt_of_le hp h.fresh)
    rw [htype, hdata]
    exact h.node p hp
  contents f hf := (h'.contents f (Nat.lt_of_lt_of_le hf h.fresh)).trans (h.contents f hf)
  links f hf := by
    rcases h'.links f hf with ⟨hf', hno | hle⟩ | hone
    · exact hno.elim
    · rcases h.links f hf' with ⟨hf, hlinked | hle'⟩ | hone
      · exact .inl ⟨hf, .inl hlinked⟩
      · exact .inl ⟨hf, .inr (Nat.le_trans hle hle')⟩
      · exact .inr (Nat.le_trans hle hone)
    · exact .inr hone

theorem Kept.mono (hgone : ∀ p, gone p → gone' p) : Kept gone' linked s s' :=
  { h with nodes := fun p hp hne => h.nodes p hp fun hg => hne (hgone p hg) }

theorem Kept.andThen (h' : Kept gone False s' s'') : Kept gone linked s s'' :=
  (h.trans h').mono fun _ hp => hp.elim id id

end

/-- A change of pointers, names and times only. -/
structure Light (s s' : Volume) : Prop where
  nodes : s'.nodes = s.nodes
  files : s'.files = s.files
  texts : s'.texts = s.texts
  fresh : s'.fresh = s.fresh
  root : s'.root = s.root
  file : s'.file = s.file
  node : ∀ p, (s'.node p).type = (s.node p).type ∧ (s'.node p).data = (s.node p).data ∧
    (s'.node p).inode = (s.node p).inode

namespace Light

theorem trans (h : Light s s') (h' : Light s' s'') : Light s s'' where
  nodes := h'.nodes.trans h.nodes
  files := h'.files.trans h.files
  texts := h'.texts.trans h.texts
  fresh := h'.fresh.trans h.fresh
  root := h'.root.trans h.root
  file := h'.file.trans h.file
  node p := by
    rw [(h'.node p).1, (h'.node p).2.1, (h'.node p).2.2]
    exact h.node p

theorem data (h : Light s s') (hdata : Data s) : Data s' :=
  hdata.congr ⟨h.nodes, h.files, h.texts, Nat.le_of_eq h.fresh.symm, fun p _ => h.node p,
    fun f _ => by rw [h.file]⟩

theorem kept (h : Light s s') : Kept gone linked s s' where
  fresh := Nat.le_of_eq h.fresh.symm
  nodes p hp _ := h.nodes ▸ hp
  node p _ := ⟨(h.node p).1, (h.node p).2.1⟩
  contents f _ := by rw [h.file]
  links f hf := by
    rw [h.files] at hf
    exact .inl ⟨hf, .inr (Nat.le_of_eq (by rw [h.file]))⟩

variable {n : Node}

theorem setNode (htype : n.type = (s.node p).type) (hdata : n.data = (s.node p).data)
    (hinode : n.inode = (s.node p).inode) : Light s (s.setNode p n) :=
  ⟨rfl, rfl, rfl, rfl, rfl, rfl, fun q => ⟨Volume.setNode_same s htype q,
    Volume.setNode_same s hdata q, Volume.setNode_same s hinode q⟩⟩

theorem touch (s : Volume) (env : Env) (d : Ptr) : Light s (touch s env d) := .setNode rfl rfl rfl

theorem insertChild (s : Volume) (d p : Ptr) : Light s (insertChild s d p) :=
  ⟨rfl, rfl, rfl, rfl, rfl, rfl, fun _ => ⟨rfl, rfl, rfl⟩⟩

end Light

/-- A node gets other fields, but keeps its name and type. -/
theorem sameShape_setNode (hname : n.name = (s.node p).name)
    (htype : n.type = (s.node p).type) : SameShape s (s.setNode p n) :=
  ⟨⟨rfl, rfl, Nat.le_refl _, fun q _ => Volume.setNode_same s hname q,
    fun q _ => Volume.setNode_same s htype q⟩, rfl, rfl, rfl⟩

theorem Tree.touch (h : Tree loose s kids) (env : Env) (d : Ptr) :
    Tree loose (touch s env d) kids :=
  h.congr (sameShape_setNode rfl rfl)

theorem Sound.setNode (h : Sound s) (hname : n.name = (s.node p).name)
    (htype : n.type = (s.node p).type) (hdata : n.data = (s.node p).data)
    (hinode : n.inode = (s.node p).inode) : Sound (s.setNode p n) := by
  obtain ⟨kids, ht, hd⟩ := h
  exact ⟨kids, ht.congr (sameShape_setNode hname htype), (Light.setNode htype hdata hinode).data hd⟩

/-- A loose node can get another name. -/
theorem Tree.rename (h : Tree (some c) s kids) (htype : n.type = (s.node c).type) :
    Tree (some c) (s.setNode c n) kids := by
  obtain ⟨_, _, hcnot⟩ := h.unplaced c rfl
  have hother : ∀ {q}, q ≠ c → (s.setNode c n).node q = s.node q := fun hq =>
    update_of_ne hq ..
  have htypes := Volume.setNode_same s htype
  exact
    { h with
      root := ⟨h.root.1, h.root.2.1, (htypes _).trans h.root.2.2⟩
      leaf := fun p hp hne => h.leaf p hp (htypes p ▸ hne)
      names := fun d hd => by
        refine (h.names d hd).imp_of_mem fun {a b} ha hb hne => ?_
        rw [hother (ne_of_mem_of_not_mem ha (hcnot d hd)),
          hother (ne_of_mem_of_not_mem hb (hcnot d hd))]
        exact hne
      named := fun p hp hroot hne => by
        rw [hother fun heq => hne (heq ▸ rfl)]
        exact h.named p hp hroot hne }

/-! ## Finding a child -/

/-- The walk over the children finds the one of this name, or there is none. -/
theorem Tree.findChild (h : Tree loose s kids) (hd : d ∈ s.nodes) (name : Name) :
    ((∀ a ∈ kids d, name ≠ (s.node a).name) ∧ findChild s d name = some none) ∨
      ∃ pre c post, kids d = pre ++ c :: post ∧ (s.node c).name = name ∧
        findChild s d name = some (some (pre.getLast?, c)) := by
  rcases firstWith_eq (h.linked d hd) (h.kids_length hd)
    (fun c => decide (name = (s.node c).name)) none with ⟨hnone, hwalk⟩
      | ⟨pre, c, post, hsplit, hok, _, hwalk⟩
  · exact .inl ⟨fun a ha => of_decide_eq_false (hnone a ha), hwalk⟩
  · refine .inr ⟨pre, c, post, hsplit, (of_decide_eq_true hok).symm, ?_⟩
    rw [RamFs.findChild, hwalk, or_none]

/-- The checks before a name is added. -/
theorem Tree.mayAdd (h : Tree loose s kids) (hd : d ∈ s.nodes) (name : Name) :
    Returns (mayAdd s d name) fun ok => ok → ValidName name ∧
      (s.node d).type = .directory ∧ ∀ a ∈ kids d, name ≠ (s.node a).name := by
  unfold RamFs.mayAdd
  split_ifs with hdot htype hempty
  · exact returns_some nofun
  · exact returns_some nofun
  · exact returns_some nofun
  rcases h.findChild hd name with ⟨hfree, hwalk⟩ | ⟨pre, c, post, _, _, hwalk⟩
  · rw [hwalk]
    exact returns_some fun _ => ⟨⟨hempty, Bool.eq_false_iff.mpr hdot⟩, not_not.mp htype, hfree⟩
  · rw [hwalk]
    exact returns_some nofun

/-! ## Taking a child out -/

/-- The pointers after a child is taken out of its directory's list. -/
structure Spliced (s : Volume) (d : Ptr) (old new : List Ptr) (s' : Volume) : Prop where
  linked : Linked s'.nextSibling (s'.firstChild d) new
  next : ∀ x, x ∉ old → s'.nextSibling x = s.nextSibling x
  first : ∀ x, x ≠ d → s'.firstChild x = s.firstChild x
  rest : s' = { s with nextSibling := s'.nextSibling, firstChild := s'.firstChild }

theorem spliced {pre post : List Ptr}
    (h : Linked s.nextSibling (s.firstChild d) (pre ++ c :: post)) :
    Spliced s d (pre ++ c :: post) (pre ++ post) (spliceOut s d pre.getLast? c) := by
  cases hlast : pre.getLast? with
  | none =>
    rw [getLast?_eq_none_iff] at hlast
    subst hlast
    refine ⟨?_, fun _ _ => rfl, fun x hx => update_of_ne hx .., rfl⟩
    change Linked s.nextSibling (update s.firstChild d (s.nextSibling c) d) post
    rw [update_self]
    exact h.2
  | some b =>
    obtain ⟨pre', rfl⟩ := getLast?_eq_some_iff.mp hlast
    rw [append_assoc] at h
    refine ⟨?_, fun x hx => update_of_ne ?_ .., fun _ _ => rfl, rfl⟩
    · rw [append_assoc]
      exact h.skip
    · rintro rfl
      simp at hx

theorem Tree.splice (h : Tree none s kids) (hd : d ∈ s.nodes) {pre post : List Ptr}
    (hkids : kids d = pre ++ c :: post) (hs : Spliced s d (pre ++ c :: post) (pre ++ post) s') :
    Tree (some c) s' (update kids d (pre ++ post)) := by
  rw [hs.rest]
  exact h.detach hd hkids hs.linked (fun x hx => hs.next x (hkids ▸ hx)) hs.first

/-- The walk of `ramfsDetachChild` finds the child it is given. -/
theorem Tree.detachChild (h : Tree none s kids) (hd : d ∈ s.nodes) (hc : c ∈ kids d) :
    ∃ pre post s', kids d = pre ++ c :: post ∧ detachChild s d c = some (s', true) ∧
      Spliced s d (pre ++ c :: post) (pre ++ post) s' := by
  have hlinked := h.linked d hd
  rcases firstWith_eq hlinked (h.kids_length hd) (fun a => decide (a = c)) none with
    ⟨hnone, _⟩ | ⟨pre, a, post, hsplit, hok, _, hwalk⟩
  · have hnot := hnone c hc
    simp at hnot
  · have hac : a = c := of_decide_eq_true hok
    subst hac
    rw [or_none] at hwalk
    rw [hsplit] at hlinked
    have hnot := hlinked.notMem_mid
    have hs := spliced hlinked
    refine ⟨pre, post, { spliceOut s d pre.getLast? a with
      nextSibling := update (spliceOut s d pre.getLast? a).nextSibling a none }, hsplit, ?_, ?_⟩
    · simp only [RamFs.detachChild, hwalk]
      rfl
    · refine ⟨hs.linked.update_of_notMem hnot none, fun x hx => ?_, hs.first, ?_⟩
      · have hxa : x ≠ a := fun heq => hx (by simp [heq])
        exact (update_of_ne hxa ..).trans (hs.next x hx)
      · exact congrArg (fun v : Volume => { v with
          nextSibling := update (spliceOut s d pre.getLast? a).nextSibling a none }) hs.rest

/-! ## Destroying a leaf -/

/-- Without children only the node and its data go. -/
theorem destroyNode_leaf (fuel : Nat) (h : s.firstChild p = none) :
    destroyNode (fuel + 1) s p = releaseData s p >>= (·.freeNode p) := by
  have hchildren : destroyChildren fuel s none = some s := by cases fuel <;> rfl
  simp only [destroyNode, h, hchildren]
  rfl

theorem Destroyed.tree (hd : Destroyed s c s') (h : Tree (some c) s kids) (hleaf : kids c = []) :
    Tree none s' kids := by
  refine (h.drop hleaf).congr ⟨⟨hd.nodes, hd.root, Nat.le_of_eq hd.fresh.symm, ?_, ?_⟩, hd.parent,
    hd.firstChild, hd.nextSibling⟩
  · intro p _
    rw [hd.node]
  · intro p _
    rw [hd.node]

theorem Destroyed.keptRest (hd : Destroyed s c s') (hnodup : s.nodes.Nodup) :
    Kept (· = c) False s s' where
  fresh := Nat.le_of_eq hd.fresh.symm
  nodes p hp hne := by
    rw [hd.nodes]
    exact hnodup.mem_erase_iff.mpr ⟨hne, hp⟩
  node p _ := by rw [hd.node]; exact ⟨rfl, rfl⟩
  contents f _ := by rw [hd.file f]
  links f hf := by
    refine .inl ⟨hd.files f hf, .inr ?_⟩
    rw [hd.links f hf]
    exact Nat.sub_le ..

theorem Spliced.light {old new : List Ptr} (h : Spliced s d old new s') : Light s s' := by
  rw [h.rest]
  exact ⟨rfl, rfl, rfl, rfl, rfl, rfl, fun _ => ⟨rfl, rfl, rfl⟩⟩

/-! ## `nodeUnlink` and `nodeRmdir` -/

/-- The child of this name. -/
def childOf (s : Volume) (d : Ptr) (name : Name) : Option Ptr :=
  ((findChild s d name).join).map Prod.snd

theorem Tree.childOf_eq (ht : Tree none s kids) (hd : d ∈ s.nodes) (name : Name) :
    (childOf s d name = none ∧ RamFs.findChild s d name = some none ∧
        ∀ a ∈ kids d, name ≠ (s.node a).name) ∨
      ∃ b c, childOf s d name = some c ∧ RamFs.findChild s d name = some (some (b, c)) ∧
        c ∈ kids d ∧
        (s.node c).name = name := by
  rcases ht.findChild hd name with ⟨hfree, hwalk⟩ | ⟨pre, c, post, hkids, hname, hwalk⟩
  · exact .inl ⟨by simp [childOf, hwalk], hwalk, hfree⟩
  · exact .inr ⟨_, c, by simp [childOf, hwalk], hwalk, by simp [hkids], hname⟩

/-- A loose leaf is destroyed. -/
theorem Tree.destroy (h : Tree (some c) s kids) (hdata : Data s) (hleaf : kids c = [])
    (fuel : Nat) :
    Returns (destroyNode (fuel + 1) s c) fun s' =>
      Tree none s' kids ∧ Data s' ∧ Destroyed s c s' := by
  have hc := (h.unplaced c rfl).1
  rw [destroyNode_leaf fuel ((h.firstChild_none hc).mpr hleaf)]
  exact (hdata.destroy h.nodup hc).mono fun s' ⟨hdata', hd⟩ => ⟨hd.tree h hleaf, hdata', hd⟩

section

variable (h : Sound s) (hd : d ∈ s.nodes)

include h hd

theorem Sound.removeChild (name : Name) {refuses : Ptr → Bool}
    (hleaf : ∀ kids, Tree none s kids → ∀ c ∈ s.nodes, refuses c = false → kids c = []) :
    Returns (removeChild s env refuses d name) fun r =>
      Outcome (childOf s d name = some ·) False (r.2 = false) s r.1 := by
  have hsame : ∀ {failed}, Outcome (childOf s d name = some ·) False failed s s := .refl h
  obtain ⟨kids, ht, hdata⟩ := h
  unfold RamFs.removeChild
  split_ifs with hdot htype
  · exact returns_pure hsame
  · exact returns_pure hsame
  rcases ht.findChild hd name with ⟨_, hwalk⟩ | ⟨pre, c, post, hkids, hname, hwalk⟩
  · rw [hwalk]
    exact returns_some hsame
  have hchild : childOf s d name = some c := by
    rw [childOf, hwalk]
    rfl
  have hc : c ∈ kids d := by simp [hkids]
  rw [hwalk]
  refine returns_unless hsame fun hrefused => ?_
  have hcnode := (ht.kid d hd c hc).1
  have hcleaf := hleaf kids ht c hcnode (Bool.eq_false_iff.mpr hrefused)
  have hcd : c ≠ d := by
    rintro rfl
    rw [hcleaf] at hc
    cases hc
  have hspliced := spliced (hkids ▸ ht.linked d hd)
  have hlight := hspliced.light.trans (.touch _ env d)
  have hloose := (ht.splice hd hkids hspliced).touch env d
  refine (hloose.destroy (hlight.data hdata) ?_ _).bind fun s' ⟨ht', hdata', hdestroyed⟩ => ?_
  · rw [update_of_ne hcd]
    exact hcleaf
  · refine returns_some ⟨⟨_, ht', hdata'⟩, nofun, ?_⟩
    refine (hlight.kept.andThen (hdestroyed.keptRest hloose.nodup)).mono ?_
    rintro p rfl
    exact hchild

theorem Sound.nodeUnlink (name : Name) : Returns (nodeUnlink s env d name) fun r =>
      Outcome (childOf s d name = some ·) False (r.2 = false) s r.1 :=
  h.removeChild hd name fun _ ht c hc hrefused => ht.leaf c hc (of_decide_eq_false hrefused)

theorem Sound.nodeRmdir (name : Name) : Returns (nodeRmdir s env d name) fun r =>
      Outcome (childOf s d name = some ·) False (r.2 = false) s r.1 := by
  refine h.removeChild hd name fun _ ht c hc hrefused => (ht.firstChild_none hc).mp ?_
  simp only [Bool.or_eq_false_iff, isSome_eq_false_iff, isNone_iff_eq_none] at hrefused
  exact hrefused.2

end

/-! ## New nodes -/

/-- A call that fails may have used up an inode number or an address. -/
structure Idle (s s' : Volume) : Prop where
  rest : s' = { s with nextInode := s'.nextInode, fresh := s'.fresh }
  fresh : s.fresh ≤ s'.fresh

theorem Idle.refl (s : Volume) : Idle s s := ⟨rfl, Nat.le_refl _⟩

section

variable (h : Idle s s')

include h

theorem Idle.unchanged : Unchanged s s' := by
  have hfresh := h.fresh
  rw [h.rest]
  constructor <;> simp [hfresh]

theorem Idle.kept : Kept gone linked s s' where
  fresh := h.fresh
  nodes p hp _ := by rw [h.rest]; exact hp
  node p _ := by rw [h.rest]; exact ⟨rfl, rfl⟩
  contents f _ := by rw [h.rest]
  links f hf := by
    rw [h.rest] at hf ⊢
    exact .inl ⟨hf, .inr (Nat.le_refl _)⟩

theorem Idle.tree (ht : Tree loose s kids) : Tree loose s' kids := by
  have hfresh := h.fresh
  rw [h.rest]
  exact ht.congr ⟨⟨rfl, rfl, hfresh, fun _ _ => rfl, fun _ _ => rfl⟩, rfl, rfl, rfl⟩

theorem Idle.data (hdata : Data s) : Data s' := by
  have hfresh := h.fresh
  rw [h.rest]
  exact hdata.congr ⟨rfl, rfl, rfl, hfresh, fun _ _ => ⟨rfl, rfl, rfl⟩, fun _ _ => rfl⟩

theorem Idle.sound (hs : Sound s) : Sound s' := by
  obtain ⟨kids, ht, hdata⟩ := hs
  exact ⟨kids, h.tree ht, h.data hdata⟩

end

theorem kept_addNode (s : Volume) (n : Node) : Kept gone linked s (s.addNode n) where
  fresh := Nat.le_succ _
  nodes _ hp _ := mem_cons_of_mem _ hp
  node p hp := by
    rw [show (s.addNode n).node p = s.node p from update_of_ne (Nat.ne_of_lt hp) ..]
    exact ⟨rfl, rfl⟩
  contents _ _ := rfl
  links _ hf := .inl ⟨hf, .inr (Nat.le_refl _)⟩

theorem kept_addFile (s : Volume) {f : FileData} (hlinks : f.links ≤ 1) :
    Kept gone linked s (s.addFile f) := by
  have hnode : ∀ p, p ≠ s.fresh → (s.addFile f).file p = s.file p := fun p hp =>
    update_of_ne hp ..
  refine ⟨Nat.le_succ _, fun _ hp _ => hp, fun _ _ => ⟨rfl, rfl⟩, fun p hp => ?_, fun p hp => ?_⟩
  · rw [hnode p (Nat.ne_of_lt hp)]
  · by_cases hnew : p = s.fresh
    · subst hnew
      right
      rw [show (s.addFile f).file s.fresh = f from update_self ..]
      exact hlinks
    · refine .inl ⟨(mem_cons.mp hp).resolve_left hnew, .inr (Nat.le_of_eq ?_)⟩
      rw [hnode p hnew]

theorem kept_addText (s : Volume) (text : Name) : Kept gone linked s (s.addText text) :=
  ⟨Nat.le_succ _, fun _ hp _ => hp, fun _ _ => ⟨rfl, rfl⟩, fun _ _ => rfl,
    fun _ hf => .inl ⟨hf, .inr (Nat.le_refl _)⟩⟩

/-- A node is loose at the address that was the next one. -/
structure Added (linked : Prop) (s : Volume) (kids : Ptr → List Ptr) (n : Node) (s' : Volume) :
    Prop where
  tree : Tree (some s.fresh) s' (update kids s.fresh [])
  data : Data s'
  kept : Kept (fun _ => False) linked s s'
  nodes : s'.nodes = s.fresh :: s.nodes
  node : s'.node = update s.node s.fresh n

theorem added_addNode (ht : Tree none s kids) (hdata : Data s) (i : Nat)
    (htype : n.type ≠ .regular) (hn : n.data = none) :
    Added False s kids n ({ s with nextInode := i }.addNode n) := by
  have hidle : Idle s { s with nextInode := i } := ⟨rfl, Nat.le_refl _⟩
  exact ⟨(hidle.tree ht).add n, (hidle.data hdata).add (hidle.tree ht).fresh_notMem htype hn,
    hidle.kept.andThen (kept_addNode _ n), rfl, rfl⟩

/-- A regular file and a node of any other type. -/
theorem createNode_spec (ht : Tree none s kids) (hdata : Data s) (env : Env) (name : Name)
    (type : FileType) (mode : Nat) :
    (∃ s', createNode s env name type mode = (s', none) ∧ Idle s s') ∨
      ∃ s' n, createNode s env name type mode = (s', some s.fresh) ∧ Added False s kids n s' ∧
        n.name = name.take 255 ∧ n.type = type := by
  have hidle : Idle s { s with nextInode := s.nextInode + 1 } := ⟨rfl, Nat.le_refl _⟩
  have ht0 := hidle.tree ht
  unfold createNode
  split_ifs with hnode htype hfile
  · exact .inl ⟨s, rfl, .refl s⟩
  · exact .inl ⟨_, rfl, rfl, Nat.le_succ _⟩
  · refine .inr ⟨_,
      { Node.new env name type s.nextInode mode with data := some (s.fresh + 1) }, rfl,
      ⟨?_, ?_, ?_, rfl, rfl⟩, rfl, rfl⟩
    · exact (ht0.add _).congr
        ⟨⟨rfl, rfl, Nat.le_succ _, fun _ _ => rfl, fun _ _ => rfl⟩, rfl, rfl, rfl⟩
    · exact (hidle.data hdata).addRegular ht0.fresh_notMem htype rfl rfl
    · exact (hidle.kept.andThen (kept_addNode _ _)).andThen (kept_addFile _ (Nat.le_refl _))
  · exact .inr ⟨_, _, rfl, added_addNode ht hdata _ htype rfl, rfl, rfl⟩

theorem Added.new (h : Added linked s kids n s') : s'.node s.fresh = n := by
  rw [h.node, update_self]

/-- Fields of the new node that the tree and the counts do not read are set. -/
theorem Added.set {n n' : Node} (h : Added linked s kids n s') (hname : n'.name = n.name)
    (htype : n'.type = n.type) (hdata : n'.data = n.data) (hinode : n'.inode = n.inode) :
    Added linked s kids n' (s'.setNode s.fresh n') := by
  rw [← h.new] at hname htype hdata hinode
  have hlight : Light s' (s'.setNode s.fresh n') := .setNode htype hdata hinode
  refine ⟨h.tree.congr (sameShape_setNode hname htype), hlight.data h.data,
    h.kept.andThen hlight.kept,
    h.nodes, ?_⟩
  rw [Volume.setNode, h.node, update_idem]

/-- The new node becomes a child. -/
theorem Added.place (h : Added linked s kids n s') (ht : Tree none s kids) (hd : d ∈ s.nodes)
    (hdir : (s.node d).type = .directory) (hn : n.name = name.take 255)
    (hlength : name.length ≤ 255)
    (hname : ValidName name) (hfree : ∀ a ∈ kids d, name ≠ (s.node a).name) (env : Env) :
    Sound (touch (insertChild s' d s.fresh) env d) ∧
      Kept (fun _ => False) linked s (touch (insertChild s' d s.fresh) env d) := by
  have hnew : (s'.node s.fresh).name = name := by
    rw [h.new, hn, take_of_length_le hlength]
  have hold : ∀ {p}, p ∈ s.nodes → s'.node p = s.node p := fun hp => by
    rw [h.node, update_of_ne (ne_of_mem_of_not_mem hp ht.fresh_notMem)]
  have hne : d ≠ s.fresh := ne_of_mem_of_not_mem hd ht.fresh_notMem
  have hd' : d ∈ s'.nodes := h.nodes ▸ mem_cons_of_mem _ hd
  have hplaced := h.tree.attach hd' (by rw [hold hd]; exact hdir) (fun l hl => ?_)
    (by rw [hnew]; exact hname) fun a ha => ?_
  · have hlight := (Light.insertChild s' d s.fresh).trans (Light.touch _ env d)
    exact ⟨⟨_, hplaced.touch env d, hlight.data h.data⟩, h.kept.andThen hlight.kept⟩
  · exact h.tree.notMem_chain_of_leaf (fun x hx => (some.inj hx).symm) (update_self ..) hd' hne hl
  · rw [update_of_ne hne] at ha
    rw [hnew, hold (ht.kid d hd a ha).1]
    exact hfree a ha

/-! ## `nodeCreate`, `nodeMkdir`, `nodeMknod` and `nodeSymlink` -/

theorem Idle.outcome (h : Idle s s') (hs : Sound s) : Outcome gone linked failed s s' :=
  ⟨h.sound hs, fun _ => h.unchanged, h.kept⟩

/-- A call that adds a node, or gives no node and leaves the tree as it was. -/
def Adds (s : Volume) (r : Volume × Option Ptr) : Prop :=
  Outcome (fun _ => False) False (r.2 = none) s r.1

theorem addEntry_spec (ht : Tree none s kids) (hdata : Data s) (hd : d ∈ s.nodes)
    (hdir : (s.node d).type = .directory) (hlength : name.length ≤ 255) (hname : ValidName name)
    (hfree : ∀ a ∈ kids d, name ≠ (s.node a).name) (type : FileType) (mode rdev : Nat) :
    Adds s (addEntry s env d name type mode rdev) := by
  unfold addEntry
  rcases createNode_spec ht hdata env name type mode with
    ⟨s', hcall, hidle⟩ | ⟨s', n, hcall, hadded, hn, _⟩
  · rw [hcall]
    exact hidle.outcome ⟨kids, ht, hdata⟩
  · have hset : Added False s kids { n with rdev } (s'.setNode s.fresh { n with rdev }) :=
      hadded.set rfl rfl rfl rfl
    obtain ⟨hsound, hkept⟩ := hset.place ht hd hdir hn hlength hname hfree env
    simp only [hcall, hadded.new]
    exact ⟨hsound, nofun, hkept⟩

/-- The calls that add a node once `mayAdd` agrees. -/
theorem Sound.ifMayAdd (h : Sound s) (hd : d ∈ s.nodes) (name : Name)
    {add : Option (Volume × Option Ptr)}
    (hadd : ∀ kids, Tree none s kids → Data s → ValidName name → (s.node d).type = .directory →
      (∀ a ∈ kids d, name ≠ (s.node a).name) → Returns add (Adds s)) :
    Returns (mayAdd s d name >>= fun ok => if ok = true then add else pure (s, none)) (Adds s) := by
  have hsame : ∀ {failed}, Outcome (fun _ => False) False failed s s := .refl h
  obtain ⟨kids, ht, hdata⟩ := h
  refine (ht.mayAdd hd name).bind fun ok hok => ?_
  cases ok with
  | false => exact returns_some hsame
  | true =>
    obtain ⟨hname, hdir, hfree⟩ := hok rfl
    exact hadd kids ht hdata hname hdir hfree

section

variable (h : Sound s) (hd : d ∈ s.nodes) (hlength : name.length ≤ 255)

include h hd hlength

theorem Sound.nodeCreate (mode : Nat) : Returns (nodeCreate s env d name mode) (Adds s) :=
  h.ifMayAdd hd name fun _ ht hdata hname hdir hfree =>
    returns_some (addEntry_spec ht hdata hd hdir hlength hname hfree _ _ _)

theorem Sound.nodeMkdir (mode : Nat) : Returns (nodeMkdir s env d name mode) (Adds s) :=
  h.ifMayAdd hd name fun _ ht hdata hname hdir hfree =>
    returns_some (addEntry_spec ht hdata hd hdir hlength hname hfree _ _ _)

theorem Sound.nodeMknod (mode dev : Nat) : Returns (nodeMknod s env d name mode dev) (Adds s) := by
  refine h.ifMayAdd hd name fun _ ht hdata hname hdir hfree => ?_
  cases mknodType mode with
  | none => exact returns_some (.refl h)
  | some type => exact returns_some (addEntry_spec ht hdata hd hdir hlength hname hfree _ _ _)

end

/-- A new symbolic link is given up when there is no block for its text. -/
theorem Added.giveUp {i : Nat} (ht : Tree none s kids)
    (h : Added False s kids n s') (hs' : s' = { s with nextInode := i }.addNode n)
    (hdata : n.data = none) (fuel : Nat) :
    Returns (destroyNode (fuel + 1) s' s.fresh) (Outcome (fun _ => False) False True s) := by
  have hne : ∀ {p}, p ∈ s.nodes → p ≠ s.fresh := fun hp => ne_of_mem_of_not_mem hp ht.fresh_notMem
  have hrelease : releaseData s' s.fresh = some s' := by
    rw [releaseData, h.new, hdata]
    cases n.type <;> rfl
  have hleaf : s'.firstChild s.fresh = none := by
    rw [hs']
    exact update_self ..
  have hcall : destroyNode (fuel + 1) s' s.fresh = some { s' with nodes := s.nodes } := by
    rw [destroyNode_leaf fuel hleaf, hrelease, bind_eq_bind, bind_some, Volume.freeNode, h.nodes,
      if_pos mem_cons_self, erase_cons_head]
  obtain ⟨_, hreturns, htree, hdata', _⟩ := h.tree.destroy h.data (update_self ..) fuel
  cases hcall.symm.trans hreturns
  subst hs'
  refine ⟨_, hcall, ⟨_, htree, hdata'⟩, fun _ => ?_, ?_⟩
  · exact ⟨rfl, rfl, rfl, rfl, Nat.le_succ _, fun p hp => update_of_ne (hne hp) ..,
      fun p hp => update_of_ne (hne hp) .., fun p hp => update_of_ne (hne hp) ..,
      fun p hp => update_of_ne (hne hp) .., fun _ _ => rfl, fun _ _ => rfl⟩
  · exact ⟨h.kept.fresh, fun _ hp _ => hp, h.kept.node, h.kept.contents, h.kept.links⟩

/-- The new symbolic link gets its text. -/
theorem Added.text (h : Added False s kids n s') (htype : n.type = .symlink) (text : Name) :
    Added False s kids { n with data := some s'.fresh, size := text.length }
      ((s'.addText text).setNode s.fresh { (s'.addText text).node s.fresh with
        data := some s'.fresh, size := text.length }) := by
  have hnew : (s'.addText text).node s.fresh = n := h.new
  have hmem : s.fresh ∈ s'.nodes := (h.tree.unplaced _ rfl).1
  have htree : Tree (some s.fresh) (s'.addText text) (update kids s.fresh []) :=
    h.tree.congr ⟨⟨rfl, rfl, Nat.le_succ _, fun _ _ => rfl, fun _ _ => rfl⟩, rfl, rfl, rfl⟩
  refine ⟨htree.congr (sameShape_setNode rfl rfl), ?_, ?_, h.nodes, ?_⟩
  · exact h.data.addText hmem (hnew ▸ htype) text (hnew ▸ htype) rfl
  · have hkept := h.kept.andThen (kept_addText s' text)
    refine ⟨hkept.fresh, hkept.nodes, fun p hp => ?_, hkept.contents, hkept.links⟩
    rw [Volume.setNode_of_ne _ (Nat.ne_of_lt hp)]
    exact hkept.node p hp
  · rw [hnew]
    change update s'.node s.fresh _ = _
    rw [h.node, update_idem]

theorem Sound.nodeSymlink (h : Sound s) (hd : d ∈ s.nodes) (hlength : name.length ≤ 255)
    (target : Name) : Returns (nodeSymlink s env d name target) (Adds s) := by
  refine h.ifMayAdd hd name fun kids ht hdata hname hdir hfree => ?_
  have hcreate : createNode s env name .symlink 0o777 = if !env.granted 0 then (s, none) else
      ({ s with nextInode := s.nextInode + 1 }.addNode
        (.new env name .symlink s.nextInode 0o777), some s.fresh) := by
    simp [createNode]
  have hadded := added_addNode ht hdata (s.nextInode + 1)
    (n := .new env name .symlink s.nextInode 0o777) nofun rfl
  rw [hcreate]
  split
  · exact returns_some (.refl h)
  by_cases hgranted : (!env.granted 0)
  · rw [if_pos hgranted]
    exact returns_some (.refl h)
  rw [if_neg hgranted]
  dsimp only
  split
  · refine (hadded.giveUp ht rfl rfl _).bind fun s' ⟨hsound, hunchanged, hkept⟩ => ?_
    exact returns_some ⟨hsound, fun _ => hunchanged trivial, hkept⟩
  · obtain ⟨hsound, hkept⟩ := (hadded.text rfl target).place ht hd hdir rfl hlength hname hfree env
    exact returns_some ⟨hsound, nofun, hkept⟩

/-! ## `nodeLink` -/

/-- The node to be linked is a regular file, and the new name is free. -/
def Linkable (s : Volume) (d : Ptr) (name : Name) (d' : Ptr) (name' : Name) : Prop :=
  childOf s d' name' = none ∧ ∃ p, childOf s d name = some p ∧ (s.node p).type = .regular

/-- Another node for the file of a node that is there. -/
theorem added_link (env : Env) (hlinked : linked) (ht : Tree none s kids) (hdata : Data s)
    (hp : p ∈ s.nodes)
    {f : Ptr} (htype : (s.node p).type = .regular) (hf : (s.node p).data = some f) (name : Name) :
    Added linked s kids (.link env name (s.node p) f (s.file f))
      ((s.addNode (.link env name (s.node p) f (s.file f))).setFile f
        { s.file f with links := (s.file f).links + 1, ctime := env.now }) := by
  obtain ⟨f', hf', hdata'⟩ := hdata.regular p hp htype
  cases hf.symm.trans hdata'
  have hkept : Kept (fun _ => False) linked s
      (s.addNode (.link env name (s.node p) f (s.file f))) := kept_addNode s _
  refine ⟨(ht.add _).congr
      ⟨⟨rfl, rfl, Nat.le_refl _, fun _ _ => rfl, fun _ _ => rfl⟩, rfl, rfl, rfl⟩,
    hdata.addLink (n := .link env name (s.node p) f (s.file f)) ht.fresh_notMem rfl rfl hf' hp
      (refers_iff.mpr ⟨htype, hf⟩) rfl (Eq.refl ((s.file f).links + 1)),
    ⟨hkept.fresh, hkept.nodes, hkept.node, fun g _ => ?_, fun g hg => .inl ⟨hg, .inl hlinked⟩⟩,
      rfl, rfl⟩
  rw [Volume.setFile, apply_update fun _ => FileData.contents]
  exact congrFun (update_eq_self f _) g

theorem Sound.nodeLink (h : Sound s) (hd : d ∈ s.nodes) {d' : Ptr} (hd' : d' ∈ s.nodes)
    {name' : Name}
    (hlength : name'.length ≤ 255) : Returns (nodeLink s env d name d' name') fun r =>
      Outcome (fun _ => False) (Linkable s d name d' name') (r.2 = false) s r.1 := by
  have hsame : ∀ {linked failed}, Outcome (fun _ => False) linked failed s s := .refl h
  obtain ⟨kids, ht, hdata⟩ := h
  refine returns_unless hsame fun hempty => returns_unless hsame fun hdot =>
    returns_unless hsame fun htypes => ?_
  rcases ht.childOf_eq hd' name' with ⟨hchild', hwalk', hfree⟩ | ⟨_, _, _, hwalk', _⟩
  swap
  · rw [hwalk']
    exact returns_some hsame
  rcases ht.childOf_eq hd name with ⟨_, hwalk, _⟩ | ⟨_, source, hchild, hwalk, hkid, _⟩
  · rw [hwalk', hwalk]
    exact returns_some hsame
  rw [hwalk', hwalk]
  have hsource : source ∈ s.nodes := (ht.kid d hd source hkid).1
  simp only [bind_eq_bind, bind_some, isSome_none, Bool.false_eq_true, if_false]
  split
  · rename_i f htype hf
    split
    · exact returns_some hsame
    simp only [not_or, not_not] at htypes
    have hlinkable : Linkable s d name d' name' := ⟨hchild', source, hchild, htype⟩
    have hadded := added_link env hlinkable ht hdata hsource htype hf name'
    obtain ⟨hsound, hkept⟩ := hadded.place ht hd' htypes.2 rfl hlength
      ⟨fun he => hempty (.inr he), Bool.eq_false_iff.mpr fun he => hdot (by simp [he])⟩ hfree env
    refine returns_some ⟨hsound.setNode rfl rfl rfl rfl, nofun, hkept.andThen (Light.kept ?_)⟩
    exact Light.setNode rfl rfl rfl
  · exact returns_some hsame

/-! ## `nodeRename` -/

section

variable (ht : Tree none s kids)

include ht

/-- A child moves to a directory that is not below it, to a name that is free there. -/
theorem moveEntry_spec (hdata : Data s) (hd : d ∈ s.nodes) (hc : c ∈ kids d)
    {d' : Ptr} (hd' : d' ∈ s.nodes) (hdir : (s.node d').type = .directory)
    (hbelow : ∀ l, Linked s.parent (some d') l → c ∉ l) (hlength : name.length ≤ 255)
    (hname : ValidName name) (hfree : ∀ a ∈ kids d', name ≠ (s.node a).name) :
    Returns (moveEntry s env d c d' name) fun r => r.2 ∧ Sound r.1 ∧ Light s r.1 := by
  obtain ⟨pre, post, s', hkids, hcall, hspliced⟩ := ht.detachChild hd hc
  have hlight := hspliced.light
  have hloose := ht.splice hd hkids hspliced
  obtain ⟨hcmem, _, hcnot⟩ := hloose.unplaced c rfl
  have hparent : s'.parent = s.parent := by rw [hspliced.rest]
  have hnode : s'.node = s.node := by rw [hspliced.rest]
  have htaken : name.take 255 = name := take_of_length_le hlength
  have hrenamed := hloose.rename
    (n := { s'.node c with name := name.take 255, ctime := env.now }) rfl
  have hlight' := hlight.trans (.setNode
    (n := { s'.node c with name := name.take 255, ctime := env.now }) rfl rfl rfl)
  have hd'' : d' ∈ s'.nodes := hlight.nodes ▸ hd'
  have hsub : ∀ a ∈ update kids d (pre ++ post) d', a ∈ kids d' := fun a ha => by
    by_cases heq : d' = d
    · subst heq
      rw [update_self] at ha
      rw [hkids]
      exact (List.Sublist.append_left (sublist_cons_self c post) pre).subset ha
    · rwa [update_of_ne heq] at ha
  have hplaced := hrenamed.attach hd'' ?_ (fun l hl => hbelow l (hparent ▸ hl)) ?_ fun a ha => ?_
  · have hmoved := (hplaced.touch env d).touch env d'
    have hlight'' := ((hlight'.trans (.insertChild _ d' c)).trans (.touch _ env d)).trans
      (.touch _ env d')
    unfold moveEntry
    rw [hcall]
    exact returns_some ⟨rfl, ⟨_, hmoved, hlight''.data hdata⟩, hlight''⟩
  · rw [(hlight'.node d').1]
    exact hdir
  · rw [Volume.setNode_self, htaken]
    exact hname
  · rw [Volume.setNode_self, Volume.setNode_of_ne _
      (ne_of_mem_of_not_mem ha (hcnot d' hd'')), hnode,
      htaken]
    exact hfree a (hsub a ha)

/-- The node in the way of a rename is taken out and destroyed. -/
theorem Tree.replace (hdata : Data s) (hd : d ∈ s.nodes) (hc : c ∈ kids d) (hleaf : kids c = []) :
    ∃ pre post s1 s2, kids d = pre ++ c :: post ∧ RamFs.detachChild s d c = some (s1, true) ∧
      destroyNode (s1.fresh + 1) s1 c = some s2 ∧
      Tree none s2 (update kids d (pre ++ post)) ∧ Data s2 ∧ s2.node = s.node ∧
      s2.parent = s.parent ∧ Kept (· = c) False s s2 := by
  have hcd : c ≠ d := by
    rintro rfl
    rw [hleaf] at hc
    cases hc
  obtain ⟨pre, post, s1, hkids, hcall, hspliced⟩ := ht.detachChild hd hc
  have hloose := ht.splice hd hkids hspliced
  obtain ⟨s2, hdestroy, ht2, hdata2, hdestroyed⟩ := hloose.destroy (hspliced.light.data hdata)
    ((update_of_ne hcd ..).trans hleaf) s1.fresh
  refine ⟨pre, post, s1, s2, hkids, hcall, hdestroy, ht2, hdata2, ?_, ?_, ?_⟩
  · rw [hdestroyed.node, hspliced.rest]
  · rw [hdestroyed.parent, hspliced.rest]
  · exact hspliced.light.kept.andThen (hdestroyed.keptRest hloose.nodup)

/-- A node that a rename may replace has no children. -/
theorem Tree.leaf_of_mayReplace (hc : c ∈ s.nodes) (h : mayReplace s p c) : kids c = [] := by
  by_cases htype : (s.node c).type = .directory
  · refine (ht.firstChild_none hc).mp ?_
    simp only [mayReplace, htype] at h
    cases hfirst : s.firstChild c with
    | none => rfl
    | some a => simp [hfirst] at h
  · exact ht.leaf c hc htype

/-- A directory that is moved is not above the one it is moved to. -/
theorem Tree.isDescendantOf_eq (hd : d ∈ s.nodes) (p : Ptr) :
    ∃ l, Linked s.parent (some d) l ∧ isDescendantOf s d p = some (decide (p ∈ l)) := by
  obtain ⟨l, hl, hmem⟩ := ht.chain d hd
  exact ⟨l, hl, contains_eq hl (ht.length_le hl.nodup hmem) p⟩

end

theorem Sound.nodeRename (h : Sound s) (hd : d ∈ s.nodes) {d' : Ptr} (hd' : d' ∈ s.nodes)
    {name' : Name} (hlength : name'.length ≤ 255) :
    Returns (nodeRename s env d name d' name') fun r =>
      Outcome (fun p => childOf s d' name' = some p ∧ childOf s d name ≠ some p) False (r.2 = false)
        s r.1 := by
  have hsame : ∀ {failed},
      Outcome (fun p => childOf s d' name' = some p ∧ childOf s d name ≠ some p) False failed s s :=
    .refl h
  obtain ⟨kids, ht, hdata⟩ := h
  unfold RamFs.nodeRename
  refine returns_unless hsame fun hempty => returns_unless hsame fun hdot =>
    returns_unless hsame fun htypes => ?_
  have hvalid : ValidName name' := ⟨hempty, Bool.eq_false_iff.mpr fun he => hdot (by simp [he])⟩
  simp only [not_or, not_not] at htypes
  rcases ht.childOf_eq hd name with ⟨_, hwalk, _⟩ | ⟨b, source, hchild, hwalk, hsource, _⟩
  · rw [hwalk]
    exact returns_some hsame
  obtain ⟨l, hl, hdescendant⟩ := ht.isDescendantOf_eq hd' source
  simp only [hwalk, hdescendant, bind_eq_bind, bind_some]
  split
  · exact returns_some hsame
  split
  · exact returns_some hsame
  rename_i hsamename habove
  have hsourcemem := (ht.kid d hd source hsource).1
  have hbelow : ∀ l', Linked s.parent (some d') l' → source ∉ l' := by
    intro l' hl'
    by_cases htype : (s.node source).type = .directory
    · rw [hl'.unique hl]
      simpa [htype] using habove
    · refine ht.notMem_chain_of_leaf nofun (ht.leaf source hsourcemem htype) hd' ?_ hl'
      rintro rfl
      exact htype htypes.2
  rcases ht.childOf_eq hd' name' with ⟨_, hwalk', hfree⟩
    | ⟨b', target, hchild', hwalk', htarget, hname'⟩
  · rw [hwalk']
    refine (moveEntry_spec ht hdata hd hsource hd' htypes.2 hbelow hlength hvalid hfree).mono ?_
    rintro r ⟨hok, hsound, hlight⟩
    exact ⟨hsound, fun hno => Bool.noConfusion (hok.symm.trans hno), hlight.kept⟩
  rw [hwalk']
  simp only [bind_some]
  split
  · exact returns_some hsame
  split
  · exact returns_some hsame
  split
  · exact returns_some hsame
  rename_i hne _ hmay
  have htargetmem := (ht.kid d' hd' target htarget).1
  have hleaf := ht.leaf_of_mayReplace htargetmem (by simpa using hmay)
  obtain ⟨pre, post, s1, s2, hkids, hcall, hdestroy, ht2, hdata2, hnode, hparent, hkept⟩ :=
    ht.replace hdata hd' htarget hleaf
  have hnonleaf : ∀ {x a}, a ∈ kids x → x ≠ target := by
    rintro x a ha rfl
    rw [hleaf] at ha
    cases ha
  -- the other children of the directory have other names than the one that is replaced
  have hnames : ∀ a ∈ pre ++ post, name' ≠ (s.node a).name := by
    have hpairs := ht.names d' hd'
    rw [hkids, pairwise_append, pairwise_cons] at hpairs
    intro a ha
    rcases mem_append.mp ha with ha | ha
    · exact hname' ▸ (hpairs.2.2 a ha target mem_cons_self).symm
    · exact hname' ▸ hpairs.2.1.1 a ha
  have hsource2 : source ∈ update kids d' (pre ++ post) d := by
    by_cases heq : d = d'
    · subst heq
      rw [hkids] at hsource
      simpa [Ne.symm hne] using hsource
    · rw [update_of_ne heq]
      exact hsource
  simp only [hcall, hdestroy, bind_some]
  refine (moveEntry_spec ht2 hdata2 (hkept.nodes d hd (hnonleaf hsource)) hsource2
    (hkept.nodes d' hd' (hnonleaf htarget)) ?_ ?_ hlength hvalid fun a ha => ?_).mono ?_
  · rw [hnode]
    exact htypes.2
  · rw [hparent]
    exact hbelow
  · rw [update_self] at ha
    rw [hnode]
    exact hnames a ha
  · rintro r ⟨hok, hsound, hlight⟩
    refine ⟨hsound, fun hno => Bool.noConfusion (hok.symm.trans hno),
      (hkept.andThen hlight.kept).mono ?_⟩
    rintro p rfl
    exact ⟨hchild', fun heq => hne (some.inj (heq.symm.trans hchild))⟩

end InstantOS.RamFs

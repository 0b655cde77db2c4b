import InstantOS.Base.Returns
import InstantOS.Fs.RamFs
import Mathlib.Data.List.Count

/-!
# Link counts

The data of a regular file is shared by its hard links, and its `links` field says how many
nodes refer to it.  `Data` is what the allocated nodes and data say about each other; it does
not depend on where the nodes are in the tree.
-/

namespace InstantOS.RamFs

open Function Volume List

/-- The node is a name of this file. -/
def refers (s : Volume) (f p : Ptr) : Bool :=
  (s.node p).type = .regular && (s.node p).data = some f

structure Data (s : Volume) : Prop where
  files : s.files.Nodup
  texts : s.texts.Nodup
  fileBound : ∀ f ∈ s.files, f < s.fresh
  textBound : ∀ t ∈ s.texts, t < s.fresh
  regular : ∀ p ∈ s.nodes, (s.node p).type = .regular → ∃ f ∈ s.files, (s.node p).data = some f
  symlink : ∀ p ∈ s.nodes, (s.node p).type = .symlink → ∀ t, (s.node p).data = some t → t ∈ s.texts
  single : ∀ p ∈ s.nodes, ∀ q ∈ s.nodes, (s.node p).type = .symlink → (s.node q).type = .symlink →
    ∀ t, (s.node p).data = some t → (s.node q).data = some t → p = q
  links : ∀ f ∈ s.files, (s.file f).links = s.nodes.countP (refers s f)
  inode : ∀ f, ∀ p ∈ s.nodes, ∀ q ∈ s.nodes, refers s f p = true → refers s f q = true →
    (s.node p).inode = (s.node q).inode

variable {s s' : Volume} {p q f : Ptr}

theorem refers_iff : refers s f p ↔ (s.node p).type = .regular ∧ (s.node p).data = some f := by
  simp [refers]

/-- The parts of the nodes and of the data that `Data` is about are the same. -/
structure SameData (s s' : Volume) : Prop where
  nodes : s'.nodes = s.nodes
  files : s'.files = s.files
  texts : s'.texts = s.texts
  fresh : s.fresh ≤ s'.fresh
  node : ∀ p ∈ s.nodes, (s'.node p).type = (s.node p).type ∧ (s'.node p).data = (s.node p).data ∧
    (s'.node p).inode = (s.node p).inode
  links : ∀ f ∈ s.files, (s'.file f).links = (s.file f).links

theorem SameData.refers (h : SameData s s') (hp : p ∈ s.nodes) :
    RamFs.refers s' f p = RamFs.refers s f p := by
  obtain ⟨htype, hdata, _⟩ := h.node p hp
  unfold RamFs.refers
  rw [htype, hdata]

namespace Data

theorem congr (h : Data s) (hs : SameData s s') : Data s' where
  files := hs.files ▸ h.files
  texts := hs.texts ▸ h.texts
  fileBound f hf := by
    rw [hs.files] at hf
    exact Nat.lt_of_lt_of_le (h.fileBound f hf) hs.fresh
  textBound t ht := by
    rw [hs.texts] at ht
    exact Nat.lt_of_lt_of_le (h.textBound t ht) hs.fresh
  regular p hp := by
    rw [hs.nodes] at hp
    obtain ⟨htype, hdata, _⟩ := hs.node p hp
    rw [htype, hdata, hs.files]
    exact h.regular p hp
  symlink p hp := by
    rw [hs.nodes] at hp
    obtain ⟨htype, hdata, _⟩ := hs.node p hp
    rw [htype, hdata, hs.texts]
    exact h.symlink p hp
  single p hp q hq := by
    rw [hs.nodes] at hp hq
    rw [(hs.node p hp).1, (hs.node p hp).2.1, (hs.node q hq).1, (hs.node q hq).2.1]
    exact h.single p hp q hq
  links f hf := by
    rw [hs.files] at hf
    rw [hs.links f hf, h.links f hf, hs.nodes]
    exact countP_congr fun p hp => by rw [hs.refers hp]
  inode f p hp q hq := by
    rw [hs.nodes] at hp hq
    rw [hs.refers hp, hs.refers hq, (hs.node p hp).2.2, (hs.node q hq).2.2]
    exact h.inode f p hp q hq

end Data

/-! ## Destroying a node -/

/-- What is left when a node is destroyed: the other nodes as they were, and the data of every
file that one of them refers to. -/
structure Destroyed (s : Volume) (p : Ptr) (s' : Volume) : Prop where
  nodes : s'.nodes = s.nodes.erase p
  node : s'.node = s.node
  parent : s'.parent = s.parent
  firstChild : s'.firstChild = s.firstChild
  nextSibling : s'.nextSibling = s.nextSibling
  root : s'.root = s.root
  fresh : s'.fresh = s.fresh
  nextInode : s'.nextInode = s.nextInode
  text : s'.text = s.text
  files : ∀ f ∈ s'.files, f ∈ s.files
  file : ∀ f, s'.file f = { s.file f with links := (s'.file f).links }
  kept : ∀ f ∈ s.files, ∀ q ∈ s.nodes, q ≠ p → refers s f q = true → f ∈ s'.files
  links : ∀ f ∈ s'.files, (s'.file f).links =
    (s.file f).links - if refers s f p = true then 1 else 0

namespace Data

/-- The rest of the data is as before, and so are the texts of the other symbolic links. -/
theorem of_destroyed (h : Data s) (hnodup : s.nodes.Nodup) (hp : p ∈ s.nodes)
    (hd : Destroyed s p s')
    (hfiles : s'.files.Nodup) (htexts : s'.texts.Nodup) (hsub : ∀ t ∈ s'.texts, t ∈ s.texts)
    (hkept : ∀ t ∈ s.texts, ∀ q ∈ s.nodes, q ≠ p → (s.node q).type = .symlink →
      (s.node q).data = some t → t ∈ s'.texts) : Data s' := by
  have hmem : ∀ {q}, q ∈ s'.nodes → q ≠ p ∧ q ∈ s.nodes := fun hq => by
    rw [hd.nodes] at hq
    exact hnodup.mem_erase_iff.mp hq
  have hrefers : ∀ f q, refers s' f q = refers s f q := fun f q => by
    unfold refers
    rw [hd.node]
  exact
    { files := hfiles
      texts := htexts
      fileBound := fun f hf => hd.fresh ▸ h.fileBound f (hd.files f hf)
      textBound := fun t ht => hd.fresh ▸ h.textBound t (hsub t ht)
      regular := fun q hq htype => by
        rw [hd.node] at htype ⊢
        obtain ⟨f, hf, hdata⟩ := h.regular q (hmem hq).2 htype
        exact ⟨f, hd.kept f hf q (hmem hq).2 (hmem hq).1 (refers_iff.mpr ⟨htype, hdata⟩), hdata⟩
      symlink := fun q hq htype t hdata => by
        rw [hd.node] at htype hdata
        exact hkept t (h.symlink q (hmem hq).2 htype t hdata) q (hmem hq).2 (hmem hq).1 htype hdata
      single := fun q hq r hr => by
        rw [hd.node]
        exact h.single q (hmem hq).2 r (hmem hr).2
      links := fun f hf => by
        rw [hd.links f hf, h.links f (hd.files f hf), hd.nodes, funext (hrefers f), countP_erase]
        simp only [hp, true_and]
      inode := fun f q hq r hr => by
        rw [hrefers, hrefers, hd.node]
        exact h.inode f q (hmem hq).2 r (hmem hr).2 }

/-- One name of a file less, where the files that are still referred to stay. -/
theorem destroyed_unlinked (hrefers : refers s f p) (files : List Ptr)
    (hsub : ∀ g ∈ files, g ∈ s.files)
    (hkept : ∀ g ∈ s.files, ∀ q ∈ s.nodes, q ≠ p → refers s g q → g ∈ files) :
    Destroyed s p { s.setFile f { s.file f with links := (s.file f).links - 1 } with
      files := files, nodes := s.nodes.erase p } := by
  have hother : ∀ {g}, g ≠ f → refers s g p ≠ true := fun hgf hg => hgf
    (Option.some.inj ((refers_iff.mp hg).2.symm.trans (refers_iff.mp hrefers).2))
  have hfile : ∀ {g}, g ≠ f → file (s.setFile f { s.file f with
      links := (s.file f).links - 1 }) g = s.file g := fun hne => update_of_ne hne ..
  have hself : file (s.setFile f { s.file f with links := (s.file f).links - 1 }) f =
    { s.file f with links := (s.file f).links - 1 } := update_self ..
  exact
    { nodes := rfl, node := rfl, parent := rfl, firstChild := rfl, nextSibling := rfl,
      root := rfl, fresh := rfl, nextInode := rfl, text := rfl, files := hsub, kept := hkept
      file := fun g => by
        by_cases hgf : g = f
        · subst hgf
          exact hself.trans (by rw [show file _ g = _ from hself])
        · exact (hfile hgf).trans (by rw [show file _ g = _ from hfile hgf])
      links := fun g hg => by
        by_cases hgf : g = f
        · subst hgf
          rw [show file _ g = _ from hself, if_pos hrefers]
        · rw [show file _ g = _ from hfile hgf, if_neg (hother hgf)]
          rfl }

/-- A node that is no name of a file. -/
theorem destroyed_plain (hrefers : ∀ g, refers s g p ≠ true) (texts : List Ptr) :
    Destroyed s p { s with texts := texts, nodes := s.nodes.erase p } :=
  { nodes := rfl, node := rfl, parent := rfl, firstChild := rfl, nextSibling := rfl,
    root := rfl, fresh := rfl, nextInode := rfl, text := rfl
    files := fun g hg => hg
    file := fun g => rfl
    kept := fun g hg _ _ _ _ => hg
    links := fun g hg => by
      rw [if_neg (hrefers g)]
      rfl }

/-- A node is destroyed, and its data if no other node refers to it. -/
theorem destroy (h : Data s) (hnodup : s.nodes.Nodup) (hp : p ∈ s.nodes) :
    Returns (releaseData s p >>= (·.freeNode p)) fun s' => Data s' ∧ Destroyed s p s' := by
  unfold releaseData
  split
  · -- a regular file
    rename_i f htype hdata
    have hrefers : refers s f p := refers_iff.mpr ⟨htype, hdata⟩
    obtain ⟨f', hf, hdata'⟩ := h.regular p hp htype
    cases hdata.symm.trans hdata'
    have hlinks := h.links f hf
    rw [if_pos hf]
    dsimp only
    split
    · rename_i hlast
      -- the count was 1, so no other node refers to the file
      have honly : ∀ q ∈ s.nodes, q ≠ p → refers s f q = false := fun q hq hne => by
        by_contra htrue
        rw [Bool.not_eq_false] at htrue
        have herase : 0 < (s.nodes.erase p).countP (refers s f) :=
          countP_pos_iff.mpr ⟨q, hnodup.mem_erase_iff.mpr ⟨hne, hq⟩, htrue⟩
        rw [countP_erase] at herase
        simp only [hp, hrefers, and_self, if_true] at herase
        omega
      have hd := destroyed_unlinked hrefers (s.files.erase f) (fun _ hg => mem_of_mem_erase hg)
        fun g hg q hq hqp hqrefers => by
          refine h.files.mem_erase_iff.mpr ⟨?_, hg⟩
          rintro rfl
          rw [honly q hq hqp] at hqrefers
          cases hqrefers
      refine ⟨_, ?_, h.of_destroyed hnodup hp hd (h.files.erase f) h.texts (fun _ ht => ht)
        fun _ ht _ _ _ _ _ => ht, hd⟩
      simp [freeFile, freeNode, setFile, hf, hp]
    · have hd := destroyed_unlinked hrefers s.files (fun _ hg => hg) fun _ hg _ _ _ _ => hg
      refine ⟨_, ?_, h.of_destroyed hnodup hp hd h.files h.texts (fun _ ht => ht)
        fun _ ht _ _ _ _ _ => ht, hd⟩
      simp [freeNode, setFile, hp]
  · -- a symbolic link, whose text no other node has
    rename_i t htype hdata
    have ht := h.symlink p hp htype t hdata
    have hd : Destroyed s p { s with texts := s.texts.erase t, nodes := s.nodes.erase p } :=
      destroyed_plain (fun g => by simp [refers, htype]) _
    refine ⟨_, ?_, h.of_destroyed hnodup hp hd h.files (h.texts.erase t)
      (fun _ ht => mem_of_mem_erase ht) fun u hu q hq hqp hqtype hqdata => ?_, hd⟩
    · simp [freeText, freeNode, ht, hp]
    · refine h.texts.mem_erase_iff.mpr ⟨?_, hu⟩
      rintro rfl
      exact hqp (h.single q hq p hp hqtype htype u hqdata hdata)
  · rename_i hregular hsymlink
    have hd : Destroyed s p { s with nodes := s.nodes.erase p } := destroyed_plain
      (fun g hg => hregular g (refers_iff.mp hg).1 (refers_iff.mp hg).2) s.texts
    refine ⟨_, ?_, h.of_destroyed hnodup hp hd h.files h.texts (fun _ ht => ht)
      fun _ ht _ _ _ _ _ => ht, hd⟩
    simp [freeNode, hp]

/-! ## New nodes -/

section

variable (h : Data s) (hfresh : s.fresh ∉ s.nodes) {n : Node}

include h hfresh n

/-- What a new node has to bring with it. -/
theorem extend (hnodes : s'.nodes = s.fresh :: s.nodes) (hnode : s'.node = update s.node s.fresh n)
    (htexts : s'.texts = s.texts) (hle : s.fresh ≤ s'.fresh) (hfiles : s'.files.Nodup)
    (hbound : ∀ f ∈ s'.files, f < s'.fresh) (hsub : ∀ f ∈ s.files, f ∈ s'.files)
    (hregular : n.type = .regular → ∃ f ∈ s'.files, n.data = some f)
    (hsymlink : n.type = .symlink → n.data = none)
    (hlinks : ∀ f ∈ s'.files, (s'.file f).links = s.nodes.countP (refers s f) +
      if n.type = .regular ∧ n.data = some f then 1 else 0)
    (hinode : ∀ f, n.type = .regular → n.data = some f → ∀ q ∈ s.nodes, refers s f q →
      (s.node q).inode = n.inode) : Data s' := by
  have hold : ∀ {q}, q ∈ s.nodes → s'.node q = s.node q := fun hq => by
    rw [hnode, update_of_ne (ne_of_mem_of_not_mem hq hfresh)]
  have hself : s'.node s.fresh = n := by rw [hnode, update_self]
  have hcases : ∀ {q}, q ∈ s'.nodes → q = s.fresh ∨ q ∈ s.nodes := fun hq => by
    rwa [hnodes, mem_cons] at hq
  have hrefers : ∀ f, ∀ q ∈ s.nodes, refers s' f q = refers s f q := fun f q hq => by
    unfold refers
    rw [hold hq]
  exact
    { files := hfiles
      texts := htexts ▸ h.texts
      fileBound := hbound
      textBound := fun t ht => Nat.lt_of_lt_of_le (h.textBound t (htexts ▸ ht)) hle
      regular := fun q hq htype => by
        rcases hcases hq with rfl | hq
        · rw [hself] at htype ⊢
          exact hregular htype
        · rw [hold hq] at htype ⊢
          obtain ⟨f, hf, hdata⟩ := h.regular q hq htype
          exact ⟨f, hsub f hf, hdata⟩
      symlink := fun q hq htype t hdata => by
        rcases hcases hq with rfl | hq
        · rw [hself] at htype hdata
          rw [hsymlink htype] at hdata
          cases hdata
        · rw [hold hq] at htype hdata
          rw [htexts]
          exact h.symlink q hq htype t hdata
      single := fun q hq r hr htype htype' t hdata hdata' => by
        rcases hcases hq with rfl | hq
        · rw [hself] at htype hdata
          rw [hsymlink htype] at hdata
          cases hdata
        rcases hcases hr with rfl | hr
        · rw [hself] at htype' hdata'
          rw [hsymlink htype'] at hdata'
          cases hdata'
        · rw [hold hq] at htype hdata
          rw [hold hr] at htype' hdata'
          exact h.single q hq r hr htype htype' t hdata hdata'
      links := fun f hf => by
        have hcount : s.nodes.countP (refers s' f) = s.nodes.countP (refers s f) :=
          countP_congr fun q hq => by rw [hrefers f q hq]
        rw [hlinks f hf, hnodes, countP_cons, hcount]
        simp only [refers_iff, hself]
      inode := fun f q hq r hr hqf hrf => by
        rcases hcases hq with rfl | hq <;> rcases hcases hr with rfl | hr
        · rfl
        · rw [refers_iff, hself] at hqf
          rw [hrefers f r hr] at hrf
          rw [hself, hold hr, hinode f hqf.1 hqf.2 r hr hrf]
        · rw [refers_iff, hself] at hrf
          rw [hrefers f q hq] at hqf
          rw [hself, hold hq, hinode f hrf.1 hrf.2 q hq hqf]
        · rw [hrefers f q hq] at hqf
          rw [hrefers f r hr] at hrf
          rw [hold hq, hold hr]
          exact h.inode f q hq r hr hqf hrf }

/-- A node that is no regular file, and no symbolic link with a text yet. -/
theorem add (htype : n.type ≠ .regular) (hdata : n.data = none) : Data (s.addNode n) := by
  refine h.extend hfresh rfl rfl rfl (Nat.le_succ _) h.files
    (fun f hf => Nat.lt_succ_of_lt (h.fileBound f hf)) (fun f hf => hf) (fun hregular => ?_)
    (fun _ => hdata) (fun f hf => ?_) fun f hregular => ?_
  · exact absurd hregular htype
  · rw [if_neg fun hregular => htype hregular.1]
    exact h.links f hf
  · exact absurd hregular htype

/-- A regular file and its data. -/
theorem addRegular (htype : n.type = .regular)
    (hdata : n.data = some (s.fresh + 1)) {d : FileData} (hlinks : d.links = 1) :
    Data ((s.addNode n).addFile d) := by
  have hnew : ∀ f ∈ s.files, f ≠ s.fresh + 1 := fun f hf =>
    Nat.ne_of_lt (Nat.lt_succ_of_lt (h.fileBound f hf))
  have hnone : ∀ q ∈ s.nodes, refers s (s.fresh + 1) q ≠ true := fun q hq hrefers => by
    obtain ⟨hqtype, hqdata⟩ := refers_iff.mp hrefers
    obtain ⟨f, hf, hqdata'⟩ := h.regular q hq hqtype
    exact hnew f hf (Option.some.inj (hqdata'.symm.trans hqdata))
  refine h.extend hfresh rfl rfl rfl (Nat.le_add_right s.fresh 2)
    (nodup_cons.mpr ⟨fun hf => hnew _ hf rfl, h.files⟩) (fun f hf => ?_)
    (fun f hf => mem_cons_of_mem _ hf) (fun _ => ⟨_, mem_cons_self, hdata⟩)
    (fun hsymlink => by rw [htype] at hsymlink; cases hsymlink) (fun f hf => ?_)
    fun f _ hf q hq hrefers => ?_
  · rcases mem_cons.mp hf with rfl | hf
    · exact Nat.lt_succ_self _
    · exact Nat.lt_succ_of_lt (Nat.lt_succ_of_lt (h.fileBound f hf))
  · change (update s.file (s.fresh + 1) d f).links = _
    rcases (mem_cons.mp hf : f = s.fresh + 1 ∨ f ∈ s.files) with rfl | hf
    · rw [update_self, if_pos ⟨htype, hdata⟩, hlinks, countP_eq_zero.mpr hnone]
    · rw [update_of_ne (hnew f hf), h.links f hf, if_neg fun hn => hnew f hf
        (Option.some.inj (hn.2.symm.trans hdata))]
      rfl
  · cases hdata.symm.trans hf
    exact absurd hrefers (hnone q hq)

/-- Another name of a file. -/
theorem addLink (htype : n.type = .regular)
    (hdata : n.data = some f) (hf : f ∈ s.files) (hp : p ∈ s.nodes) (hrefers : refers s f p)
    (hinode : n.inode = (s.node p).inode) {d : FileData} (hlinks : d.links = (s.file f).links + 1) :
    Data ((s.addNode n).setFile f d) := by
  refine h.extend hfresh rfl rfl rfl (Nat.le_succ _) h.files
    (fun g hg => Nat.lt_succ_of_lt (h.fileBound g hg)) (fun g hg => hg) (fun _ => ⟨f, hf, hdata⟩)
    (fun hsymlink => by rw [htype] at hsymlink; cases hsymlink) (fun g hg => ?_)
    fun g _ hg q hq hqrefers => ?_
  · change (update s.file f d g).links = _
    by_cases hgf : g = f
    · subst hgf
      rw [update_self, hlinks, if_pos ⟨htype, hdata⟩, h.links g hf]
    · rw [update_of_ne hgf, h.links g hg, if_neg fun hn => hgf
        (Option.some.inj (hn.2.symm.trans hdata))]
      rfl
  · cases hdata.symm.trans hg
    rw [hinode]
    exact h.inode f q hq p hp hqrefers hrefers

end

/-- A symbolic link gets its text. -/
theorem addText (h : Data s) (hp : p ∈ s.nodes) (htype : (s.node p).type = .symlink)
    (text : List UInt8)
    {n : Node} (hn : n.type = .symlink) (hdata : n.data = some s.fresh) :
    Data ((s.addText text).setNode p n) := by
  have hother : ∀ {q}, q ≠ p → ((s.addText text).setNode p n).node q = s.node q := fun hq =>
    update_of_ne hq ..
  have hself : ((s.addText text).setNode p n).node p = n := update_self ..
  have hnew : ∀ q ∈ s.nodes, q ≠ p → (s.node q).type = .symlink → (s.node q).data ≠ some s.fresh :=
    fun q hq _ hqtype hqdata => Nat.lt_irrefl _ (h.textBound _ (h.symlink q hq hqtype _ hqdata))
  have hrefers : ∀ f q, refers ((s.addText text).setNode p n) f q = refers s f q := fun f q => by
    by_cases hq : q = p
    · subst hq
      simp [refers, hn, htype]
    · rw [refers, hother hq, refers]
  exact
    { files := h.files
      texts := nodup_cons.mpr ⟨fun ht => Nat.lt_irrefl _ (h.textBound _ ht), h.texts⟩
      fileBound := fun f hf => Nat.lt_succ_of_lt (h.fileBound f hf)
      textBound := fun t ht => by
        rcases mem_cons.mp ht with rfl | ht
        · exact Nat.lt_succ_self _
        · exact Nat.lt_succ_of_lt (h.textBound t ht)
      regular := fun q hq hqtype => by
        have hqp : q ≠ p := by
          rintro rfl
          rw [hself, hn] at hqtype
          cases hqtype
        rw [hother hqp] at hqtype ⊢
        exact h.regular q hq hqtype
      symlink := fun q hq hqtype t hqdata => by
        by_cases hqp : q = p
        · subst hqp
          rw [hself, hdata] at hqdata
          cases hqdata
          exact mem_cons_self
        · rw [hother hqp] at hqtype hqdata
          exact mem_cons_of_mem _ (h.symlink q hq hqtype t hqdata)
      single := fun q hq r hr hqtype hrtype t hqdata hrdata => by
        by_cases hqp : q = p <;> by_cases hrp : r = p
        · exact hqp.trans hrp.symm
        · rw [hqp, hself, hdata] at hqdata
          rw [hother hrp] at hrtype hrdata
          cases hqdata
          exact absurd hrdata (hnew r hr hrp hrtype)
        · rw [hrp, hself, hdata] at hrdata
          rw [hother hqp] at hqtype hqdata
          cases hrdata
          exact absurd hqdata (hnew q hq hqp hqtype)
        · rw [hother hqp] at hqtype hqdata
          rw [hother hrp] at hrtype hrdata
          exact h.single q hq r hr hqtype hrtype t hqdata hrdata
      links := fun f hf => by
        have hcount : refers ((s.addText text).setNode p n) f = refers s f := funext (hrefers f)
        rw [hcount]
        exact h.links f hf
      inode := fun f q hq r hr hqf hrf => by
        have hne : ∀ {x}, refers s f x → x ≠ p := by
          rintro x hx rfl
          rw [refers_iff, htype] at hx
          cases hx.1
        rw [hrefers] at hqf hrf
        rw [hother (hne hqf), hother (hne hrf)]
        exact h.inode f q hq r hr hqf hrf }

end Data

end InstantOS.RamFs

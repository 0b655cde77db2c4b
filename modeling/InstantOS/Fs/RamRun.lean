import InstantOS.Fs.RamOps

/-!
# Runs of the RAM file system

A run starts with a mount and takes any calls on directories that are there, with names as long
as a path component can be, at any time and with any allocations failing.

## Main results

* `Sound.run`: what one call does;
* `tree_and_links`: in every state of a run the nodes are a tree and the link counts are exact,
  a call that fails changes nothing, and hard links agree in all that they share.  They agree in
  their owner and device too as long as no name is linked;
* `link_without_owner`: a hard link has another owner than the file it was made from.
-/

namespace InstantOS.RamFs

open IntrusiveList Function List

/-- A call on directories, which are given by the nodes that a lookup found. -/
inductive Op
  | create (d : Ptr) (name : Name) (mode : Nat)
  | mkdir (d : Ptr) (name : Name) (mode : Nat)
  | mknod (d : Ptr) (name : Name) (mode dev : Nat)
  | symlink (d : Ptr) (name target : Name)
  | link (d : Ptr) (name : Name) (d' : Ptr) (name' : Name)
  | unlink (d : Ptr) (name : Name)
  | rmdir (d : Ptr) (name : Name)
  | rename (d : Ptr) (name : Name) (d' : Ptr) (name' : Name)

namespace Op

/-- The call; `false` stands for the result -1. -/
def run (s : Volume) (env : Env) : Op → Option (Volume × Bool)
  | create d name mode => (nodeCreate s env d name mode).map fun r => (r.1, r.2.isSome)
  | mkdir d name mode => (nodeMkdir s env d name mode).map fun r => (r.1, r.2.isSome)
  | mknod d name mode dev => (nodeMknod s env d name mode dev).map fun r => (r.1, r.2.isSome)
  | symlink d name target => (nodeSymlink s env d name target).map fun r => (r.1, r.2.isSome)
  | link d name d' name' => nodeLink s env d name d' name'
  | unlink d name => nodeUnlink s env d name
  | rmdir d name => nodeRmdir s env d name
  | rename d name d' name' => nodeRename s env d name d' name'

/-- The directories are there, and a new name fits the buffers that the VFS copies it to. -/
def Possible (s : Volume) : Op → Prop
  | create d name _ | mkdir d name _ | mknod d name _ _ | symlink d name _ =>
    d ∈ s.nodes ∧ name.length ≤ 255
  | unlink d _ | rmdir d _ => d ∈ s.nodes
  | link d _ d' name' | rename d _ d' name' => d ∈ s.nodes ∧ d' ∈ s.nodes ∧ name'.length ≤ 255

/-- The nodes that the call may destroy. -/
def Destroys (s : Volume) : Op → Ptr → Prop
  | unlink d name, p | rmdir d name, p => childOf s d name = some p
  | rename d name d' name', p => childOf s d' name' = some p ∧ childOf s d name ≠ some p
  | _, _ => False

/-- The call makes another name of a file. -/
def Links (s : Volume) : Op → Prop
  | link d name d' name' => Linkable s d name d' name'
  | _ => False

end Op

/-- A file system before it is mounted. -/
structure Blank (s : Volume) : Prop where
  nodes : s.nodes = []
  files : s.files = []
  texts : s.texts = []

def mount (s : Volume) (env : Env) : Option Volume :=
  match createNode s env [47] .directory 0o755 with
  | (_, none) => none
  | (s, some p) => some { s with root := p }

/-- The states of the runs in which every call meets the condition. -/
inductive Reached (ok : Volume → Op → Prop) : Volume → Prop
  | mount {s s' : Volume} {env : Env} (hs : Blank s) (hmount : mount s env = some s') :
      Reached ok s'
  | step {s s' : Volume} {env : Env} {op : Op} {result : Bool} (h : Reached ok s)
      (hpossible : op.Possible s) (hok : ok s op) (hrun : op.run s env = some (s', result)) :
      Reached ok s'

variable {s s' : Volume} {env : Env} {op : Op} {ok : Volume → Op → Prop} {f p q : Ptr}

/-! ## The steps -/

theorem Outcome.ofLinked {gone : Ptr → Prop} {linked linked' failed failed' : Prop}
    (h : Outcome gone linked failed s s') (hlinked : linked → linked')
    (hfailed : failed' → failed) :
    Outcome gone linked' failed' s s' where
  sound := h.sound
  unchanged hf := h.unchanged (hfailed hf)
  kept := ⟨h.kept.fresh, h.kept.nodes, h.kept.node, h.kept.contents, fun f hf =>
    (h.kept.links f hf).imp_left fun ⟨hmem, hle⟩ => ⟨hmem, hle.imp_left hlinked⟩⟩

theorem Sound.run (h : Sound s) (hop : op.Possible s) (env : Env) :
    Returns (op.run s env) fun r => Outcome (op.Destroys s) (op.Links s) (r.2 = false) s r.1 := by
  cases op with
  | create d name mode =>
    exact (h.nodeCreate hop.1 hop.2 mode).map fun _ hr => hr.ofLinked id (by simp)
  | mkdir d name mode =>
    exact (h.nodeMkdir hop.1 hop.2 mode).map fun _ hr => hr.ofLinked id (by simp)
  | mknod d name mode dev =>
    exact (h.nodeMknod hop.1 hop.2 mode dev).map fun _ hr => hr.ofLinked id (by simp)
  | symlink d name target =>
    exact (h.nodeSymlink hop.1 hop.2 target).map fun _ hr => hr.ofLinked id (by simp)
  | link d name d' name' => exact h.nodeLink hop.1 hop.2.1 hop.2.2
  | unlink d name => exact h.nodeUnlink hop name
  | rmdir d name => exact h.nodeRmdir hop name
  | rename d name d' name' => exact h.nodeRename hop.1 hop.2.1 hop.2.2

/-- A mounted file system is its root. -/
theorem sound_mount (hs : Blank s) (hmount : mount s env = some s') : Sound s' ∧ s'.files = [] := by
  have hcreate : createNode s env [47] .directory 0o755 = if !env.granted 0 then (s, none) else
      ({ s with nextInode := s.nextInode + 1 }.addNode
        (Node.new env [47] .directory s.nextInode 0o755), some s.fresh) := by
    simp [createNode]
  unfold mount at hmount
  rw [hcreate] at hmount
  by_cases hgranted : (!env.granted 0)
  · rw [if_pos hgranted] at hmount
    cases hmount
  rw [if_neg hgranted] at hmount
  cases hmount
  have hnodes : s.fresh :: s.nodes = [s.fresh] := by rw [hs.nodes]
  have hself : ∀ {p}, p ∈ s.fresh :: s.nodes → p = s.fresh := fun hp => by
    rw [hnodes] at hp
    exact mem_singleton.mp hp
  have hnew : ({ s with nextInode := s.nextInode + 1 }.addNode
      (Node.new env [47] .directory s.nextInode 0o755)).node s.fresh =
        Node.new env [47] .directory s.nextInode 0o755 := update_self ..
  refine ⟨⟨fun _ => [], ?_, ?_⟩, hs.files⟩
  · exact
      { nodup := by
          change (s.fresh :: s.nodes).Nodup
          rw [hnodes]
          exact nodup_singleton _
        bound := fun p hp => hself hp ▸ Nat.lt_succ_self _
        root := ⟨mem_cons_self, update_self .., by rw [hnew]; rfl⟩
        linked := fun d hd => by
          rw [hself hd]
          exact update_self ..
        kid := fun _ _ _ hc => absurd hc not_mem_nil
        placed := fun p hp hne => absurd (hself hp) hne
        unplaced := by simp
        leaf := fun _ _ _ => rfl
        chain := fun p hp => by
          refine ⟨[p], ⟨rfl, ?_⟩, fun a ha => mem_singleton.mp ha ▸ hp⟩
          rw [hself hp]
          exact update_self ..
        names := fun _ _ => .nil
        named := fun p hp hne => absurd (hself hp) hne }
  · have hother : ∀ {p type}, p ∈ s.fresh :: s.nodes → type ≠ .directory →
        (({ s with nextInode := s.nextInode + 1 }.addNode
          (Node.new env [47] .directory s.nextInode 0o755)).node p).type ≠ type := by
      rintro p type hp htype rfl
      rw [hself hp, hnew] at htype
      exact htype rfl
    have hnone : ∀ {l : List Ptr}, l = [] → ∀ a, a ∉ l := by
      rintro l rfl a
      exact not_mem_nil
    exact
      { files := hs.files ▸ nodup_nil
        texts := hs.texts ▸ nodup_nil
        fileBound := fun f hf => absurd hf (hnone hs.files f)
        textBound := fun t ht => absurd ht (hnone hs.texts t)
        regular := fun p hp htype => absurd htype (hother hp (by simp))
        symlink := fun p hp htype => absurd htype (hother hp (by simp))
        single := fun p hp _ _ htype => absurd htype (hother hp (by simp))
        links := fun f hf => absurd hf (hnone hs.files f)
        inode := fun f p hp _ _ hrefers => absurd (refers_iff.mp hrefers).1 (hother hp (by simp)) }

theorem Reached.sound (h : Reached ok s) : Sound s := by
  induction h with
  | mount hs hmount => exact (sound_mount hs hmount).1
  | step _ hpossible _ hrun ih => exact ((ih.run hpossible _).of_eq hrun).sound

/-- As long as no name is linked, every file has one name. -/
theorem Reached.single (h : Reached ok s) (hok : ∀ s op, ok s op → ¬ op.Links s) :
    ∀ f ∈ s.files, (s.file f).links ≤ 1 := by
  induction h with
  | mount hs hmount =>
    rw [(sound_mount hs hmount).2]
    exact nofun
  | step h hpossible hstep hrun ih =>
    intro f hf
    have hkept := ((h.sound.run hpossible _).of_eq hrun).kept
    rcases hkept.links f hf with ⟨hmem, hlinks | hle⟩ | hone
    · exact absurd hlinks (hok _ _ hstep)
    · exact Nat.le_trans hle (ih f hmem)
    · exact hone

/-! ## What holds in every state -/

/-- The way up from a node ends at the root. -/
theorem Tree.rooted {kids : Ptr → List Ptr} (h : Tree none s kids) (hp : p ∈ s.nodes) :
    ∃ l, Linked s.parent (some p) (l ++ [s.root]) := by
  obtain ⟨l, hl, hmem⟩ := h.chain p hp
  cases hlast : l.getLast? with
  | none =>
    rw [getLast?_eq_none_iff] at hlast
    subst hlast
    cases hl
  | some a =>
    obtain ⟨l, rfl⟩ := getLast?_eq_some_iff.mp hlast
    have hend : s.parent a = none := hl.drop
    have hroot : a = s.root := by
      by_contra hne
      obtain ⟨d, hd, ha⟩ := h.placed a (hmem a (by simp)) hne nofun
      rw [(h.kid d hd a ha).2] at hend
      cases hend
    exact ⟨l, hroot ▸ hl⟩

/-- The file system is a tree under its root, and hard links are counted and agree in what they
share. -/
structure Correct (s : Volume) : Prop where
  tree : ∃ kids, Tree none s kids
  rooted : ∀ p ∈ s.nodes, ∃ l, Linked s.parent (some p) (l ++ [s.root])
  links : ∀ f ∈ s.files, (s.file f).links = s.nodes.countP (refers s f)
  shared : ∀ f, ∀ p ∈ s.nodes, ∀ q ∈ s.nodes, refers s f p = true → refers s f q = true →
    ∃ a, nodeStat s p = some a ∧ nodeStat s q = some { a with
      uid := (s.node q).uid
      gid := (s.node q).gid
      rdev := (s.node q).rdev }

theorem Data.nodeStat_eq (h : Data s) (hp : p ∈ s.nodes) (hrefers : refers s f p) :
    nodeStat s p = some ⟨(s.file f).contents.length, .regular, (s.file f).mode, (s.node p).inode,
      (s.file f).links, (s.file f).atime, (s.file f).mtime, (s.file f).ctime, (s.node p).uid,
      (s.node p).gid, (s.node p).rdev⟩ := by
  obtain ⟨htype, hdata⟩ := refers_iff.mp hrefers
  obtain ⟨g, hg, hdata'⟩ := h.regular p hp htype
  cases hdata.symm.trans hdata'
  simp [nodeStat, hp, hg, htype, hdata]

theorem Sound.correct (h : Sound s) : Correct s := by
  obtain ⟨kids, ht, hdata⟩ := h
  refine ⟨⟨kids, ht⟩, fun p hp => ht.rooted hp, hdata.links, fun f p hp q hq hpf hqf => ?_⟩
  refine ⟨_, hdata.nodeStat_eq hp hpf, ?_⟩
  rw [hdata.nodeStat_eq hq hqf, hdata.inode f p hp q hq hpf hqf]

/-- A file with one name has one node. -/
theorem Data.eq_of_single (h : Data s) (hp : p ∈ s.nodes) (hq : q ∈ s.nodes)
    (hpf : refers s f p) (hqf : refers s f q) (hone : (s.file f).links ≤ 1) : p = q := by
  obtain ⟨htype, hdata⟩ := refers_iff.mp hpf
  obtain ⟨g, hg, hdata'⟩ := h.regular p hp htype
  cases hdata.symm.trans hdata'
  by_contra hne
  rw [h.links f hg, countP_eq_length_filter] at hone
  have hsub : [p, q] ⊆ s.nodes.filter (refers s f) := by
    intro x hx
    rcases mem_pair.mp hx with rfl | rfl
    · exact mem_filter.mpr ⟨hp, hpf⟩
    · exact mem_filter.mpr ⟨hq, hqf⟩
  have hlength := (subperm_of_subset (by simp [hne]) hsub).length_le
  exact absurd (Nat.le_trans hlength hone) (by simp)

theorem tree_and_links (h : Reached ok s) : Correct s ∧
      (∀ (op : Op) env, op.Possible s → ∃ s' result, op.run s env = some (s', result) ∧
        (result = false → Unchanged s s')) ∧
      ((∀ s op, ok s op → ¬ op.Links s) → ∀ f, ∀ p ∈ s.nodes, ∀ q ∈ s.nodes,
        refers s f p = true → refers s f q = true → nodeStat s p = nodeStat s q) := by
  refine ⟨h.sound.correct, fun op env hpossible => ?_, fun hok f p hp q hq hpf hqf => ?_⟩
  · obtain ⟨⟨s', result⟩, hrun, houtcome⟩ := h.sound.run hpossible env
    exact ⟨s', result, hrun, houtcome.unchanged⟩
  · obtain ⟨kids, _, hdata⟩ := h.sound
    obtain ⟨htype, hdataf⟩ := refers_iff.mp hpf
    obtain ⟨g, hg, hdatag⟩ := hdata.regular p hp htype
    cases hdataf.symm.trans hdatag
    rw [hdata.eq_of_single hp hq hpf hqf (h.single hok f hg)]

/-! ## Samples -/

/-- Memory with no block in it. -/
def blank : Volume where
  node _ := ⟨[], .regular, 0, 0, 0, none, 0, 0, 0, 0, 0, 0⟩
  parent _ := none
  firstChild _ := none
  nextSibling _ := none
  file _ := ⟨[], 0, 0, 0, 0, 0, 0⟩
  text _ := []
  nodes := []
  files := []
  texts := []
  fresh := 0
  nextInode := 1
  root := 0

def calm : Env := ⟨7, fun _ => true⟩

def mounted : Volume := (mount blank calm).getD blank

def Volume.after (s : Volume) (op : Op) : Volume := ((op.run s calm).map Prod.fst).getD s

theorem reached_mounted : Reached ok mounted := by
  have hmount : mount blank calm = some mounted := rfl
  exact .mount ⟨rfl, rfl, rfl⟩ hmount

theorem Reached.after (h : Reached ok s) (hpossible : op.Possible s) (hok : ok s op) :
    Reached ok (s.after op) := by
  obtain ⟨⟨s', result⟩, hrun, _⟩ := h.sound.run hpossible calm
  have hafter : s.after op = s' := by
    rw [Volume.after, hrun]
    rfl
  exact hafter ▸ h.step hpossible hok hrun

/-- A directory with a file in it, and a call that fails. -/
def sampleVolume : Volume :=
  (((mounted.after (.mkdir 0 [100] 0o755)).after (.create 1 [97] 0o644)).after
    (.rmdir 0 [100])).after
    (.rename 1 [97] 0 [98])

theorem tree_and_links_sample :
    sampleVolume.nodes = [2, 1, 0] ∧ (sampleVolume.node 2).name = [98] ∧
      sampleVolume.parent 2 = some 0 ∧
      Correct sampleVolume ∧ ∀ f, ∀ p ∈ sampleVolume.nodes, ∀ q ∈ sampleVolume.nodes,
        refers sampleVolume f p = true → refers sampleVolume f q = true →
          nodeStat sampleVolume p = nodeStat sampleVolume q := by
  refine ⟨by decide +kernel, by decide +kernel, by decide +kernel, ?_⟩
  have hreached : Reached (fun s op => ¬ op.Links s) sampleVolume := by
    refine .after (.after (.after (.after reached_mounted ?_ nofun) ?_ nofun) ?_ nofun) ?_ nofun
    · exact ⟨by decide +kernel, by decide +kernel⟩
    · exact ⟨by decide +kernel, by decide +kernel⟩
    · change (0 : Nat) ∈ Volume.nodes _
      decide +kernel
    · exact ⟨by decide +kernel, by decide +kernel, by decide +kernel⟩
  obtain ⟨hcorrect, _, hagree⟩ := tree_and_links hreached
  exact ⟨hcorrect, hagree fun _ _ hok => hok⟩

/-- A second name for a file. -/
def linkedVolume : Volume :=
  (mounted.after (.create 0 [97] 0o644)).after (.link 0 [97] 0 [98])

/-- The nodes of the two names report another owner. -/
theorem link_without_owner : ¬ ∀ s, Reached (fun _ _ => True) s → ∀ f, ∀ p ∈ s.nodes, ∀ q ∈ s.nodes,
      refers s f p = true → refers s f q = true → nodeStat s p = nodeStat s q := by
  intro h
  have hreached : Reached (fun _ _ => True) linkedVolume := by
    refine .after (.after reached_mounted ?_ trivial) ?_ trivial
    · exact ⟨by decide +kernel, by decide +kernel⟩
    · exact ⟨by decide +kernel, by decide +kernel, by decide +kernel⟩
  have hsame := h linkedVolume hreached 2 1 (by decide +kernel) 3 (by decide +kernel)
    (by decide +kernel) (by decide +kernel)
  exact absurd hsame (by decide +kernel)

end InstantOS.RamFs

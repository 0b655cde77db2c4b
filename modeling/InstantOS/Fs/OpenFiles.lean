import InstantOS.Fs.RamRun

/-!
# Open files on the RAM file system

A `FileDescriptor` holds a `VNode`, and the `VNode` holds the address of its `RamFSNode`.
Nothing counts these references: a node goes when its name goes, whether it is open or not.

## Main results

* `open_files_survive`: as long as no node that is open is destroyed, every descriptor leads to
  a node and to file data that are allocated, and always to the same, and no call on names changes
  what is read through it;
* `unlink_frees_open_file`: a file that is open is unlinked, and the next read through the
  descriptor is a read of freed memory.
-/

namespace InstantOS.RamFs

open Function

/-- `FileDescriptor`, with the type that its `VNode` was made with. -/
structure Descriptor where
  node : Ptr
  type : FileType
  flags : Nat
  offset : Nat
  refCount : Nat
deriving DecidableEq, Repr

structure Files where
  volume : Volume
  descriptor : Nat → Option Descriptor
  nextFd : Nat

def kOpenCreate : Nat := 0o100
def kOpenExclusive : Nat := 0o200
def kOpenTruncate : Nat := 0o1000
def kOpenAppend : Nat := 0o2000
def kOpenAccessModeMask : Nat := 3
def kOpenWriteOnly : Nat := 1
def kOpenReadWrite : Nat := 2

inductive SeekMode
  | set
  | current
  | fromEnd

/-- An `int64_t`, like the argument. -/
def SeekMode.newOffset (current size : Nat) (offset : Int) : SeekMode → Int
  | set => offset.bmod (2 ^ 64)
  | .current => (current + offset).bmod (2 ^ 64)
  | fromEnd => (size + offset).bmod (2 ^ 64)

/-! ## The calls -/

section

variable (st : Files) (env : Env)

def Files.setDescriptor (fd : Nat) (d : Option Descriptor) : Files :=
  { st with descriptor := update st.descriptor fd d }

/-- A regular file is emptied if the flags ask for it. -/
def truncateOnOpen (s : Volume) (p : Ptr) (flags : Nat) : Option (Volume × Bool) :=
  if flags &&& kOpenTruncate ≠ 0 ∧ (s.node p).type = .regular then nodeTruncate s env p 0
  else some (s, true)

/-- The end of `VFS::open`, with the node that was found or created. -/
def openNode (p : Ptr) (flags : Nat) : Option (Files × Bool) := do
  match ← truncateOnOpen env st.volume p flags with
  | (volume, false) => return ({ st with volume }, false)
  | (volume, true) =>
    return ({ st with
      volume
      descriptor := update st.descriptor st.nextFd
        (some ⟨p, (st.volume.node p).type, flags, 0, 1⟩)
      nextFd := st.nextFd + 1 }, true)

/-- `VFS::open` of a path that leads to the node `found`, or to a name that is free in the
directory `d`. -/
def vfsOpen (found : Option Ptr) (d : Ptr) (name : Name) (flags mode : Nat) :
    Option (Files × Bool) := do
  match found with
  | some p =>
    if flags &&& (kOpenCreate ||| kOpenExclusive) = kOpenCreate ||| kOpenExclusive then
      return (st, false)
    else openNode st env p flags
  | none =>
    if flags &&& kOpenCreate = 0 then return (st, false)
    else
      match ← nodeCreate st.volume env d name mode with
      | (volume, none) => return ({ st with volume }, false)
      | (volume, some p) => openNode { st with volume } env p flags

def vfsClose (fd : Nat) (d : Descriptor) : Files :=
  if d.refCount - 1 = 0 then st.setDescriptor fd none
  else st.setDescriptor fd (some { d with refCount := d.refCount - 1 })

def vfsRead (fd : Nat) (d : Descriptor) (size : Nat) : Option (Files × Option (List UInt8)) := do
  if d.flags &&& kOpenAccessModeMask = kOpenWriteOnly then return (st, none)
  else
    match ← nodeRead st.volume env d.node size d.offset with
    | (volume, none) => return ({ st with volume }, none)
    | (volume, some bytes) =>
      let d := { d with offset := d.offset + bytes.length }
      return ({ st with volume }.setDescriptor fd (some d), some bytes)

/-- Where a write goes: with `kOpenAppend` to the end of the file. -/
def writeOffset (d : Descriptor) : Option Nat :=
  if d.flags &&& kOpenAppend ≠ 0 ∧ d.type = .regular then (nodeStat st.volume d.node).map (·.size)
  else some d.offset

def vfsWrite (fd : Nat) (d : Descriptor) (bytes : List UInt8) : Option (Files × Option Nat) := do
  let access := d.flags &&& kOpenAccessModeMask
  if access ≠ kOpenWriteOnly ∧ access ≠ kOpenReadWrite then return (st, none)
  else
    let offset ← writeOffset st d
    match ← nodeWrite st.volume env d.node bytes offset with
    | (volume, none) =>
      return ({ st with volume }.setDescriptor fd (some { d with offset }), none)
    | (volume, some written) =>
      return ({ st with volume }.setDescriptor fd (some { d with offset := offset + written }),
        some written)

def vfsSeek (fd : Nat) (d : Descriptor) (offset : Int) (mode : SeekMode) :
    Option (Files × Option Int) := do
  if d.type = .charDevice ∨ d.type = .pipe then return (st, none)
  else
    let stats ← nodeStat st.volume d.node
    let newOffset := mode.newOffset d.offset stats.size offset
    if newOffset < 0 then return (st, none)
    else return (st.setDescriptor fd (some { d with offset := newOffset.toNat }), some newOffset)

/-- `VFS::truncate`, of a descriptor and of a path. -/
def vfsTruncate (p : Ptr) (type : FileType) (size : Nat) : Option (Files × Bool) := do
  if type ≠ .regular then return (st, false)
  else
    let (volume, done) ← nodeTruncate st.volume env p size
    return ({ st with volume }, done)

end

/-- A system call on names or on files. -/
inductive FileCall
  | names (op : Op)
  | openPath (found : Option Ptr) (d : Ptr) (name : Name) (flags mode : Nat)
  | retain (fd : Nat)
  | close (fd : Nat)
  | read (fd size : Nat)
  | write (fd : Nat) (bytes : List UInt8)
  | seek (fd : Nat) (offset : Int) (mode : SeekMode)
  | truncate (fd size : Nat)
  | truncatePath (p : Ptr) (size : Nat)
  | stat (fd : Nat)
  | statPath (p : Ptr)

namespace FileCall

/-- A call through a descriptor, which is not made when there is none of this number. -/
def withFd (st : Files) (fd : Nat) (call : Descriptor → Option Files) : Option Files :=
  match st.descriptor fd with
  | none => some st
  | some d => call d

def run (st : Files) (env : Env) : FileCall → Option Files
  | names op => (op.run st.volume env).map fun r => { st with volume := r.1 }
  | openPath found d name flags mode => (vfsOpen st env found d name flags mode).map Prod.fst
  | retain fd => withFd st fd fun d =>
    some (st.setDescriptor fd (some { d with refCount := d.refCount + 1 }))
  | close fd => withFd st fd fun d => some (vfsClose st fd d)
  | read fd size => withFd st fd fun d => (vfsRead st env fd d size).map Prod.fst
  | write fd bytes => withFd st fd fun d => (vfsWrite st env fd d bytes).map Prod.fst
  | seek fd offset mode => withFd st fd fun d => (vfsSeek st fd d offset mode).map Prod.fst
  | truncate fd size => withFd st fd fun d => (vfsTruncate st env d.node d.type size).map Prod.fst
  | truncatePath p size =>
    (vfsTruncate st env p (st.volume.node p).type size).map Prod.fst
  | stat fd => withFd st fd fun d => (nodeStat st.volume d.node).map fun _ => st
  | statPath p => (nodeStat st.volume p).map fun _ => st

/-- What a path leads to is there. -/
def Possible (st : Files) : FileCall → Prop
  | names op => op.Possible st.volume
  | openPath found d name _ _ =>
    (∀ p, found = some p → p ∈ st.volume.nodes) ∧ d ∈ st.volume.nodes ∧ name.length ≤ 255
  | truncatePath p _ | statPath p => p ∈ st.volume.nodes
  | _ => True

/-- No node that is open is destroyed. -/
def Spares (st : Files) : FileCall → Prop
  | names op => ∀ fd d, st.descriptor fd = some d → ¬ op.Destroys st.volume d.node
  | _ => True

end FileCall

variable {s s' : Volume} {st st' : Files} {env : Env} {p f : Ptr} {fd : Nat} {d : Descriptor}

/-! ## Reading and writing a node -/

/-- Of the file behind a node the contents and the times may be others, and nothing else. -/
structure Wrote (p : Ptr) (s s' : Volume) : Prop where
  sound : Sound s'
  nodes : s'.nodes = s.nodes
  node : ∀ q, (s'.node q).type = (s.node q).type ∧ (s'.node q).data = (s.node q).data
  contents : ∀ f, (s.node p).data ≠ some f → (s'.file f).contents = (s.file f).contents

theorem Wrote.refl (h : Sound s) : Wrote p s s := ⟨h, rfl, fun _ => ⟨rfl, rfl⟩, fun _ _ => rfl⟩

theorem Sound.wrote (h : Sound s) (hf : (s.node p).data = some f) {d : FileData}
    (hlinks : d.links = (s.file f).links) {n : Node} (hname : n.name = (s.node p).name)
    (htype : n.type = (s.node p).type) (hdata : n.data = (s.node p).data)
    (hinode : n.inode = (s.node p).inode) : Wrote p s ((s.setFile f d).setNode p n) := by
  obtain ⟨kids, ht, hd⟩ := h
  have hlight : Light (s.setFile f d) ((s.setFile f d).setNode p n) := .setNode htype hdata hinode
  have hfile : Sound (s.setFile f d) := by
    refine ⟨kids,
      ht.congr ⟨⟨rfl, rfl, Nat.le_refl _, fun _ _ => rfl, fun _ _ => rfl⟩, rfl, rfl, rfl⟩,
      hd.congr ⟨rfl, rfl, rfl, Nat.le_refl _, fun _ _ => ⟨rfl, rfl, rfl⟩, fun g _ => ?_⟩⟩
    rw [Volume.setFile, apply_update fun _ => FileData.links, hlinks, update_eq_self]
  refine ⟨hfile.setNode hname htype hdata hinode, rfl,
    fun q => ⟨(hlight.node q).1, (hlight.node q).2.1⟩, fun g hg => ?_⟩
  have hgf : g ≠ f := by
    rintro rfl
    exact hg hf
  exact congrArg FileData.contents (update_of_ne hgf ..)

section

variable (h : Sound s) (hp : p ∈ s.nodes)

include h hp

/-- What `fileOf` finds is allocated. -/
theorem Sound.fileOf :
    Returns (fileOf s p) fun r => ∀ f, r = some f → (s.node p).data = some f := by
  obtain ⟨kids, _, hd⟩ := h
  unfold RamFs.fileOf
  rw [if_neg (not_not.mpr hp)]
  split
  · rename_i f htype hf
    obtain ⟨g, hg, hdata⟩ := hd.regular p hp htype
    cases hf.symm.trans hdata
    rw [if_pos hg]
    refine returns_some fun g hg => ?_
    cases hg
    exact hf
  · exact returns_some nofun

theorem Sound.nodeRead (size offset : Nat) :
    Returns (nodeRead s env p size offset) fun r => Wrote p s r.1 := by
  refine (h.fileOf hp).bind fun r hr => ?_
  cases r with
  | none => exact returns_some (.refl h)
  | some f =>
    dsimp only
    refine returns_unless (.refl h) fun _ => ?_
    refine returns_some (h.wrote (hr f rfl) ?_ ?_ ?_ ?_ ?_) <;> rfl

theorem Sound.nodeWrite (bytes : List UInt8) (offset : Nat) :
    Returns (nodeWrite s env p bytes offset) fun r => Wrote p s r.1 := by
  refine (h.fileOf hp).bind fun r hr => ?_
  cases r with
  | none => exact returns_some (.refl h)
  | some f =>
    dsimp only
    refine returns_unless (.refl h) fun _ => ?_
    refine returns_some (h.wrote (hr f rfl) ?_ ?_ ?_ ?_ ?_) <;> rfl

theorem Sound.nodeTruncate (size : Nat) :
    Returns (nodeTruncate s env p size) fun r => Wrote p s r.1 := by
  refine (h.fileOf hp).bind fun r hr => ?_
  cases r with
  | none => exact returns_some (.refl h)
  | some f =>
    dsimp only
    refine returns_unless (.refl h) fun _ => ?_
    refine returns_unless (.refl h) fun _ => ?_
    refine returns_some (h.wrote (hr f rfl) ?_ ?_ ?_ ?_ ?_) <;> rfl

end

/-- The count of a directory's subdirectories ends. -/
theorem countDirectories_returns {l : List Ptr} {head : Option Ptr} {fuel : Nat}
    (h : IntrusiveList.Linked s.nextSibling head l) (hfuel : l.length ≤ fuel) :
    Returns (countDirectories s fuel head) fun _ => True := by
  induction l generalizing head fuel with
  | nil =>
    subst h
    cases fuel <;> exact returns_some trivial
  | cons c l ih =>
    obtain ⟨rfl, h⟩ := h
    cases fuel with
    | zero => simp at hfuel
    | succ fuel => exact (ih h (by simpa using hfuel)).bind fun _ _ => returns_some trivial

theorem Sound.nodeStat (h : Sound s) (hp : p ∈ s.nodes) : Returns (nodeStat s p) fun _ => True := by
  obtain ⟨kids, ht, hd⟩ := h
  unfold RamFs.nodeStat
  rw [if_neg (not_not.mpr hp)]
  dsimp only
  split
  · rename_i f htype hf
    obtain ⟨g, hg, hdata⟩ := hd.regular p hp htype
    cases hf.symm.trans hdata
    rw [if_neg (not_not.mpr hg)]
    exact returns_some trivial
  · have hcount : Returns ((countDirectories s s.fresh (s.firstChild p)).map (2 + ·))
      fun _ => True :=
      (countDirectories_returns (ht.linked p hp) (ht.kids_length hp)).map fun _ _ => trivial
    split
    · refine hcount.bind fun links _ => ?_
      exact returns_some trivial
    · exact returns_some trivial

/-! ## The descriptors -/

/-- Every descriptor leads to a node that is allocated. -/
structure Held (st : Files) : Prop where
  sound : Sound st.volume
  bound : ∀ fd d, st.descriptor fd = some d → fd < st.nextFd
  live : ∀ fd d, st.descriptor fd = some d →
    d.node ∈ st.volume.nodes ∧ (st.volume.node d.node).type = d.type

/-- A descriptor that stays leads to the node it led to, and that node has the same data. -/
def Follows (st st' : Files) : Prop :=
  ∀ fd d d', st.descriptor fd = some d → st'.descriptor fd = some d' →
    d'.node = d.node ∧ d'.type = d.type ∧
      (st'.volume.node d.node).data = (st.volume.node d.node).data

/-- What every call does to the descriptors. -/
structure Keeps (st st' : Files) : Prop where
  held : Held st'
  follows : Follows st st'

/-- The nodes that are open have the type and the data they had. -/
structure Stays (st : Files) (s' : Volume) : Prop where
  sound : Sound s'
  nodes : ∀ fd d, st.descriptor fd = some d → d.node ∈ s'.nodes
  node : ∀ p ∈ st.volume.nodes, (s'.node p).type = (st.volume.node p).type ∧
    (s'.node p).data = (st.volume.node p).data

theorem Wrote.stays (h : Wrote p st.volume s') (hst : Held st) : Stays st s' where
  sound := h.sound
  nodes fd d hd := by
    rw [h.nodes]
    exact (hst.live fd d hd).1
  node q _ := h.node q

theorem Outcome.stays {gone : Ptr → Prop} {linked failed : Prop}
    (h : Outcome gone linked failed st.volume s') (hst : Held st)
    (hgone : ∀ fd d, st.descriptor fd = some d → ¬ gone d.node) : Stays st s' where
  sound := h.sound
  nodes fd d hd := h.kept.nodes d.node (hst.live fd d hd).1 (hgone fd d hd)
  node p hp := by
    obtain ⟨_, ht, _⟩ := hst.sound
    exact h.kept.node p (ht.bound p hp)

section

variable (h : Held st)

include h

/-- The volume changes, and one descriptor its offset or count. -/
theorem Held.set (hs : Stays st s') (hd : st.descriptor fd = some d) {d' : Descriptor}
    (hnode : d'.node = d.node) (htype : d'.type = d.type) :
    Keeps st ({ st with volume := s' }.setDescriptor fd (some d')) := by
  have hcases : ∀ {x e},
      ({ st with volume := s' }.setDescriptor fd (some d')).descriptor x = some e →
      ∃ e', st.descriptor x = some e' ∧ e.node = e'.node ∧ e.type = e'.type := by
    intro x e he
    change update st.descriptor fd (some d') x = some e at he
    by_cases hx : x = fd
    · subst hx
      rw [update_self] at he
      cases he
      exact ⟨d, hd, hnode, htype⟩
    · rw [update_of_ne hx] at he
      exact ⟨e, he, rfl, rfl⟩
  refine ⟨⟨hs.sound, fun x e he => ?_, fun x e he => ?_⟩, fun x e e' he he' => ?_⟩
  · obtain ⟨e', he', _⟩ := hcases he
    exact h.bound x e' he'
  · obtain ⟨e', he', hen, het⟩ := hcases he
    obtain ⟨hmem, hty⟩ := h.live x e' he'
    refine ⟨hen ▸ hs.nodes x e' he', ?_⟩
    rw [hen, het, ← hty]
    exact (hs.node _ hmem).1
  · obtain ⟨e'', he'', hen, het⟩ := hcases he'
    cases he.symm.trans he''
    exact ⟨hen, het, (hs.node _ (h.live x e he).1).2⟩

theorem Held.setVolume (hs : Stays st s') : Keeps st { st with volume := s' } := by
  refine ⟨⟨hs.sound, h.bound, fun fd d hd => ?_⟩, fun fd d d' hd hd' => ?_⟩
  · obtain ⟨hmem, htype⟩ := h.live fd d hd
    exact ⟨hs.nodes fd d hd, (hs.node _ hmem).1.trans htype⟩
  · cases hd.symm.trans hd'
    exact ⟨rfl, rfl, (hs.node _ (h.live fd d hd).1).2⟩

theorem Held.stays : Stays st st.volume :=
  ⟨h.sound, fun fd d hd => (h.live fd d hd).1, fun _ _ => ⟨rfl, rfl⟩⟩

theorem Held.same : Keeps st st := h.setVolume h.stays

/-- A new descriptor. -/
theorem Held.add (hs : Stays st s') (hp : p ∈ s'.nodes) (flags : Nat) :
    Keeps st { st with
      volume := s'
      descriptor := update st.descriptor st.nextFd (some ⟨p, (s'.node p).type, flags, 0, 1⟩)
      nextFd := st.nextFd + 1 } := by
  obtain ⟨hheld, hfollows⟩ := h.setVolume hs
  refine ⟨⟨hs.sound, fun x e he => ?_, fun x e he => ?_⟩, fun x e e' he he' => ?_⟩
  · by_cases hx : x = st.nextFd
    · exact hx ▸ Nat.lt_succ_self _
    · exact Nat.lt_succ_of_lt (h.bound x e ((update_of_ne hx ..).symm.trans he))
  · by_cases hx : x = st.nextFd
    · subst hx
      cases (update_self ..).symm.trans he
      exact ⟨hp, rfl⟩
    · exact hheld.live x e ((update_of_ne hx ..).symm.trans he)
  · have hx : x ≠ st.nextFd := Nat.ne_of_lt (h.bound x e he)
    exact hfollows x e e' he ((update_of_ne hx ..).symm.trans he')

theorem Held.remove (fd : Nat) : Keeps st (st.setDescriptor fd none) := by
  have hcases : ∀ {x e}, (st.setDescriptor fd none).descriptor x = some e →
      st.descriptor x = some e := by
    intro x e he
    change update st.descriptor fd none x = some e at he
    by_cases hx : x = fd
    · subst hx
      rw [update_self] at he
      cases he
    · rwa [update_of_ne hx] at he
  refine ⟨⟨h.sound, fun x e he => h.bound x e (hcases he), fun x e he => h.live x e (hcases he)⟩,
    fun x e e' he he' => ?_⟩
  cases he.symm.trans (hcases he')
  exact ⟨rfl, rfl, rfl⟩

/-! ## The steps -/

theorem Held.openNode (hs : Stays st s') (hp : p ∈ s'.nodes) (flags : Nat) :
    Returns (openNode { st with volume := s' } env p flags) fun r => Keeps st r.1 := by
  have htruncated : Returns (truncateOnOpen env s' p flags) fun r => Wrote p s' r.1 := by
    unfold truncateOnOpen
    split
    · exact hs.sound.nodeTruncate hp 0
    · exact returns_some (.refl hs.sound)
  refine htruncated.bind fun r hr => ?_
  obtain ⟨s'', done⟩ := r
  have hstays : Stays st s'' := by
    refine ⟨hr.sound, fun fd d hd => hr.nodes ▸ hs.nodes fd d hd, fun q hq => ?_⟩
    rw [(hr.node q).1, (hr.node q).2]
    exact hs.node q hq
  cases done with
  | false => exact returns_some (h.setVolume hstays)
  | true =>
    have hadd := h.add hstays (hr.nodes ▸ hp) flags
    rw [(hr.node p).1] at hadd
    exact returns_some hadd

end

/-- A file that was created is there. -/
theorem mem_of_nodeCreate {dir : Ptr} {name : Name} {mode : Nat}
    (h : nodeCreate s env dir name mode = some (s', some p)) : p ∈ s'.nodes := by
  obtain ⟨ok, _, h⟩ := Option.bind_eq_some_iff.mp h
  cases ok with
  | false => cases h
  | true =>
    have hentry := Option.some.inj h
    unfold addEntry createNode at hentry
    split_ifs at hentry
    · cases hentry
    · cases hentry
    · cases hentry
      exact List.mem_cons_self
    · cases hentry
      exact List.mem_cons_self

section

variable (h : Held st)

include h

theorem Held.vfsOpen {found : Option Ptr} {dir : Ptr} {name : Name}
    (hfound : ∀ p, found = some p → p ∈ st.volume.nodes) (hdir : dir ∈ st.volume.nodes)
    (hname : name.length ≤ 255) (flags mode : Nat) :
    Returns (vfsOpen st env found dir name flags mode) fun r => Keeps st r.1 := by
  unfold RamFs.vfsOpen
  cases found with
  | some p =>
    refine returns_unless h.same fun _ => ?_
    exact h.openNode h.stays (hfound p rfl) flags
  | none =>
    refine returns_unless h.same fun _ => ?_
    obtain ⟨⟨s', p⟩, hcreate, houtcome⟩ := (h.sound.nodeCreate hdir hname mode :
      Returns (nodeCreate st.volume env dir name mode) _)
    have hstays := houtcome.stays h fun _ _ _ => id
    rw [hcreate]
    cases p with
    | none => exact returns_some (h.setVolume hstays)
    | some p => exact h.openNode hstays (mem_of_nodeCreate hcreate) flags

section

variable (hd : st.descriptor fd = some d)

include hd

theorem Held.vfsRead (size : Nat) : Returns (vfsRead st env fd d size) fun r => Keeps st r.1 := by
  refine returns_unless h.same fun _ => ?_
  refine (h.sound.nodeRead (h.live fd d hd).1 size d.offset).bind fun r hr => ?_
  obtain ⟨s', bytes⟩ := r
  cases bytes with
  | none => exact returns_some (h.setVolume (hr.stays h))
  | some bytes => exact returns_some (h.set (hr.stays h) hd rfl rfl)

theorem Held.vfsWrite (bytes : List UInt8) :
    Returns (vfsWrite st env fd d bytes) fun r => Keeps st r.1 := by
  have hoffset : Returns (writeOffset st d) fun _ => True := by
    unfold writeOffset
    split
    · exact (h.sound.nodeStat (h.live fd d hd).1).map fun _ _ => trivial
    · exact returns_some trivial
  unfold RamFs.vfsWrite
  refine returns_unless h.same fun _ => ?_
  refine hoffset.bind fun offset _ => ?_
  refine (h.sound.nodeWrite (h.live fd d hd).1 bytes offset).bind fun r hr => ?_
  obtain ⟨s', written⟩ := r
  cases written with
  | none | some => exact returns_some (h.set (hr.stays h) hd rfl rfl)

theorem Held.vfsSeek (offset : Int) (mode : SeekMode) :
    Returns (vfsSeek st fd d offset mode) fun r => Keeps st r.1 := by
  refine returns_unless h.same fun _ => ?_
  refine (h.sound.nodeStat (h.live fd d hd).1).bind fun stats _ => ?_
  refine returns_unless h.same fun _ => ?_
  exact returns_some (h.set h.stays hd rfl rfl)

end

theorem Held.vfsTruncate (hp : p ∈ st.volume.nodes) (type : FileType) (size : Nat) :
    Returns (vfsTruncate st env p type size) fun r => Keeps st r.1 := by
  refine returns_unless h.same fun _ => ?_
  refine (h.sound.nodeTruncate hp size).bind fun r hr => ?_
  exact returns_some (h.setVolume (hr.stays h))

theorem Held.vfsClose (hd : st.descriptor fd = some d) : Keeps st (vfsClose st fd d) := by
  unfold RamFs.vfsClose
  split
  · exact h.remove fd
  · exact h.set h.stays hd rfl rfl

theorem Held.withFd {call : Descriptor → Option Files}
    (hcall : ∀ d, st.descriptor fd = some d → Returns (call d) (Keeps st)) :
    Returns (FileCall.withFd st fd call) (Keeps st) := by
  unfold FileCall.withFd
  cases hd : st.descriptor fd with
  | none => exact returns_some h.same
  | some d => exact hcall d hd

theorem Held.run {call : FileCall} (hpossible : call.Possible st) (hspares : call.Spares st)
    (env : Env) : Returns (call.run st env) (Keeps st) := by
  cases call with
  | names op =>
    exact (h.sound.run hpossible env).map fun r hr => h.setVolume (hr.stays h hspares)
  | openPath found dir name flags mode =>
    exact (h.vfsOpen hpossible.1 hpossible.2.1 hpossible.2.2 flags mode).map fun _ hr => hr
  | retain fd => exact h.withFd fun d hd => returns_some (h.set h.stays hd rfl rfl)
  | close fd => exact h.withFd fun d hd => returns_some (h.vfsClose hd)
  | read fd size => exact h.withFd fun d hd => (h.vfsRead hd size).map fun _ hr => hr
  | write fd bytes => exact h.withFd fun d hd => (h.vfsWrite hd bytes).map fun _ hr => hr
  | seek fd offset mode => exact h.withFd fun d hd => (h.vfsSeek hd offset mode).map fun _ hr => hr
  | truncate fd size =>
    exact h.withFd fun d hd => (h.vfsTruncate (h.live fd d hd).1 d.type size).map fun _ hr => hr
  | truncatePath p size => exact (h.vfsTruncate hpossible _ size).map fun _ hr => hr
  | stat fd =>
    exact h.withFd fun d hd => (h.sound.nodeStat (h.live fd d hd).1).map fun _ _ => h.same
  | statPath p => exact (h.sound.nodeStat hpossible).map fun _ _ => h.same

end

/-! ## The runs -/

/-- The states of the runs in which every call meets the condition; at first no file is open. -/
inductive FilesReached (ok : Files → FileCall → Prop) : Files → Prop
  | mount {s s' : Volume} {env : Env} (hs : Blank s) (hmount : mount s env = some s') :
      FilesReached ok ⟨s', fun _ => none, 0⟩
  | step {st st' : Files} {env : Env} {call : FileCall} (h : FilesReached ok st)
      (hpossible : call.Possible st) (hok : ok st call) (hrun : call.run st env = some st') :
      FilesReached ok st'

variable {ok : Files → FileCall → Prop}

theorem FilesReached.held (h : FilesReached ok st) (hok : ∀ st call, ok st call → call.Spares st) :
    Held st := by
  induction h with
  | mount hs hmount => exact ⟨(sound_mount hs hmount).1, nofun, nofun⟩
  | step _ hpossible hstep hrun ih => exact ((ih.run hpossible (hok _ _ hstep) _).of_eq hrun).1

theorem open_files_survive (h : FilesReached ok st) (hok : ∀ st call, ok st call → call.Spares st) :
    (∀ fd d, st.descriptor fd = some d → d.node ∈ st.volume.nodes ∧
      (d.type = .regular → ∃ f ∈ st.volume.files, (st.volume.node d.node).data = some f)) ∧
    ∀ (call : FileCall) env, call.Possible st → call.Spares st → ∃ st', call.run st env = some st' ∧
      (∀ fd d d', st.descriptor fd = some d → st'.descriptor fd = some d' →
        d'.node = d.node ∧ (st'.volume.node d.node).data = (st.volume.node d.node).data) ∧
      ∀ op, call = .names op → ∀ f ∈ st.volume.files,
        (st'.volume.file f).contents = (st.volume.file f).contents := by
  have hheld := h.held hok
  obtain ⟨kids, ht, hdata⟩ := hheld.sound
  refine ⟨fun fd d hd => ?_, fun call env hpossible hspares => ?_⟩
  · obtain ⟨hmem, htype⟩ := hheld.live fd d hd
    exact ⟨hmem, fun hregular => hdata.regular _ hmem (htype.trans hregular)⟩
  · obtain ⟨st', hrun, _, hfollows⟩ := hheld.run hpossible hspares env
    refine ⟨st', hrun, fun fd d d' hd hd' => ?_, ?_⟩
    · obtain ⟨hnode, _, hsame⟩ := hfollows fd d d' hd hd'
      exact ⟨hnode, hsame⟩
    · rintro op rfl f hf
      obtain ⟨r, hop, houtcome⟩ := hheld.sound.run hpossible env
      have hst' : st' = { st with volume := r.1 } := by
        have hnames : (op.run st.volume env).map (fun r => { st with volume := r.1 }) =
            some st' := hrun
        rw [hop] at hnames
        exact (Option.some.inj hnames).symm
      rw [hst']
      exact houtcome.kept.contents f (hdata.fileBound f hf)

/-! ## Samples -/

def Files.after (st : Files) (call : FileCall) : Files := (call.run st calm).getD st

theorem FilesReached.after (h : FilesReached ok st) {call : FileCall} (hpossible : call.Possible st)
    (hok : ok st call) (hrun : (call.run st calm).isSome) : FilesReached ok (st.after call) := by
  obtain ⟨st', hst'⟩ := Option.isSome_iff_exists.mp hrun
  have hafter : st.after call = st' := by
    rw [Files.after, hst']
    rfl
  exact hafter ▸ h.step hpossible hok hst'

/-- Nothing is open yet. -/
def unopened : Files := ⟨mounted, fun _ => none, 0⟩

theorem reached_unopened : FilesReached ok unopened := by
  have hmount : mount blank calm = some mounted := rfl
  exact .mount ⟨rfl, rfl, rfl⟩ hmount

/-- A new file is open for reading and writing, and has been written. -/
def writtenFiles : Files :=
  (unopened.after (.openPath none 0 [97] 0o102 0o644)).after (.write 0 [1, 2, 3])

theorem reached_written (hok : ∀ st call, call.Spares st → ok st call) :
    FilesReached ok writtenFiles := by
  have hopened : FilesReached ok (unopened.after (.openPath none 0 [97] 0o102 0o644)) :=
    reached_unopened.after ⟨nofun, by decide +kernel, by decide +kernel⟩ (hok _ _ trivial)
      (by decide +kernel)
  exact hopened.after trivial (hok _ _ trivial) (by decide +kernel)

/-- The file is renamed while it is open, and the bytes are still there. -/
theorem open_files_survive_sample :
    ∃ st, writtenFiles.descriptor 0 = some ⟨1, .regular, 0o102, 3, 1⟩ ∧
      (FileCall.names (.rename 0 [97] 0 [98])).run writtenFiles calm = some st ∧
      (st.volume.file 2).contents = [1, 2, 3] := by
  have hreached : FilesReached (fun st call => call.Spares st) writtenFiles :=
    reached_written fun _ _ h => h
  obtain ⟨_, hstep⟩ := open_files_survive hreached fun _ _ h => h
  have hnone : childOf writtenFiles.volume 0 [98] = none := by decide +kernel
  obtain ⟨st, hrun, _, hcontents⟩ := hstep (.names (.rename 0 [97] 0 [98])) calm
    ⟨by decide +kernel, by decide +kernel, by decide +kernel⟩
    fun _ _ _ hgone => nomatch hnone.symm.trans hgone.1
  refine ⟨st, by decide +kernel, hrun, ?_⟩
  rw [hcontents _ rfl 2 (by decide +kernel)]
  decide +kernel

/-- A file that is unlinked while it is open. -/
theorem unlink_frees_open_file :
    ¬ ∀ st, FilesReached (fun _ _ => True) st → ∀ fd d, st.descriptor fd = some d →
      d.node ∈ st.volume.nodes ∧ ∀ size env, (vfsRead st env fd d size).isSome = true := by
  intro h
  have hreached : FilesReached (fun _ _ => True)
      (writtenFiles.after (.names (.unlink 0 [97]))) := by
    refine .after (reached_written fun _ _ _ => trivial) ?_ trivial (by decide +kernel)
    change (0 : Nat) ∈ Volume.nodes _
    decide +kernel
  obtain ⟨hmem, _⟩ := h _ hreached 0 ⟨1, .regular, 0o102, 3, 1⟩ (by decide +kernel)
  exact absurd hmem (by decide +kernel)

end InstantOS.RamFs

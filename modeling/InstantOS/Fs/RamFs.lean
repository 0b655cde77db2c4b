import InstantOS.Base.IntrusiveList

/-!
# The RAM file system

The nodes of `RamFS` with their pointers, the file data that hard links share, and the
operations on them.  A node, file data and the text of a symbolic link are heap blocks: the
lists `nodes`, `files` and `texts` say which of them are allocated, and addresses are not
given out twice.  Reading a block that is not allocated, or freeing one, has no result.
-/

namespace InstantOS.RamFs

open IntrusiveList Function

abbrev Ptr := Nat

/-- The characters of a name or a path. -/
abbrev Name := List UInt8

inductive FileType
  | regular
  | directory
  | charDevice
  | blockDevice
  | symlink
  | pipe
deriving DecidableEq, Repr

/-- `RamFSNode`, but for its links to other nodes. -/
structure Node where
  name : Name
  type : FileType
  inode : Nat
  mode : Nat
  size : Nat
  data : Option Ptr
  atime : Nat
  mtime : Nat
  ctime : Nat
  uid : Nat
  gid : Nat
  rdev : Nat
deriving DecidableEq, Repr

/-- `RamFSFileData`; its `size` is the length of the contents. -/
structure FileData where
  contents : List UInt8
  capacity : Nat
  links : Nat
  mode : Nat
  atime : Nat
  mtime : Nat
  ctime : Nat
deriving DecidableEq, Repr

/-- The state of a mounted `RamFS`. -/
structure Volume where
  node : Ptr → Node
  parent : Ptr → Option Ptr
  firstChild : Ptr → Option Ptr
  nextSibling : Ptr → Option Ptr
  file : Ptr → FileData
  text : Ptr → Name
  nodes : List Ptr
  files : List Ptr
  texts : List Ptr
  fresh : Ptr
  nextInode : Nat
  root : Ptr

/-- The clock during a call, and which of its allocations succeed. -/
structure Env where
  now : Nat
  granted : Nat → Bool

/-- What `kmalloc` fills a block with, read as a 32-bit and as a 64-bit number. -/
def allocPoison32 : Nat := 0xAAAAAAAA
def allocPoison64 : Nat := 0xAAAAAAAAAAAAAAAA

def isDotOrDotDot (name : Name) : Bool := name = [46] || name = [46, 46]

/-! ## Single nodes -/

section

variable (s : Volume)

def Volume.setNode (p : Ptr) (n : Node) : Volume := { s with node := update s.node p n }

def Volume.setFile (f : Ptr) (d : FileData) : Volume := { s with file := update s.file f d }

@[simp] theorem Volume.setNode_self (p : Ptr) (n : Node) : (s.setNode p n).node p = n :=
  update_self ..

/-- What the new node has in common with the old one stays. -/
theorem Volume.setNode_same {α : Type} {g : Node → α} {p : Ptr} {n : Node} (h : g n = g (s.node p))
    (q : Ptr) : g ((s.setNode p n).node q) = g (s.node q) := by
  rw [Volume.setNode, apply_update fun _ => g, h, update_eq_self]

theorem Volume.setNode_of_ne {p q : Ptr} (h : q ≠ p) (n : Node) :
    (s.setNode p n).node q = s.node q :=
  update_of_ne h ..

/-- A new block with a node in it. -/
def Volume.addNode (n : Node) : Volume :=
  { s with
    node := update s.node s.fresh n
    parent := update s.parent s.fresh none
    firstChild := update s.firstChild s.fresh none
    nextSibling := update s.nextSibling s.fresh none
    nodes := s.fresh :: s.nodes
    fresh := s.fresh + 1 }

def Volume.addFile (d : FileData) : Volume :=
  { s with
    file := update s.file s.fresh d
    files := s.fresh :: s.files
    fresh := s.fresh + 1 }

def Volume.addText (t : Name) : Volume :=
  { s with
    text := update s.text s.fresh t
    texts := s.fresh :: s.texts
    fresh := s.fresh + 1 }

def Volume.freeNode (p : Ptr) : Option Volume :=
  if p ∈ s.nodes then some { s with nodes := s.nodes.erase p } else none

def Volume.freeFile (f : Ptr) : Option Volume :=
  if f ∈ s.files then some { s with files := s.files.erase f } else none

def Volume.freeText (t : Ptr) : Option Volume :=
  if t ∈ s.texts then some { s with texts := s.texts.erase t } else none

/-- The node `createNode` starts from. -/
def Node.new (env : Env) (name : Name) (type : FileType) (inode mode : Nat) : Node where
  name := name.take 255
  type
  inode
  mode
  size := 0
  data := none
  atime := env.now
  mtime := env.now
  ctime := env.now
  uid := 0
  gid := 0
  rdev := 0

def FileData.new (env : Env) (mode : Nat) : FileData where
  contents := []
  capacity := 0
  links := 1
  mode
  atime := env.now
  mtime := env.now
  ctime := env.now

/-- A regular file gets its data in a second block, without which the node is given up. -/
def createNode (env : Env) (name : Name) (type : FileType) (mode : Nat) : Volume × Option Ptr :=
  if !env.granted 0 then (s, none)
  else
    let n := Node.new env name type s.nextInode mode
    let s := { s with nextInode := s.nextInode + 1 }
    if type = .regular then
      if !env.granted 1 then ({ s with fresh := s.fresh + 1 }, none)
      else
        ((s.addNode { n with data := some (s.fresh + 1) }).addFile (FileData.new env mode),
          some s.fresh)
    else (s.addNode n, some s.fresh)

/-- The data of a node that is destroyed. -/
def releaseData (p : Ptr) : Option Volume :=
  match (s.node p).type, (s.node p).data with
  | .regular, some f =>
    if f ∈ s.files then
      let links := (s.file f).links - 1
      let s := s.setFile f { s.file f with links }
      if links = 0 then s.freeFile f else some s
    else none
  | .symlink, some t => s.freeText t
  | _, _ => some s

end

mutual

/-- The children first, then the data, then the node. -/
def destroyNode : Nat → Volume → Ptr → Option Volume
  | 0, _, _ => none
  | fuel + 1, s, p => do
    let s ← destroyChildren fuel s (s.firstChild p)
    let s ← releaseData s p
    s.freeNode p

def destroyChildren : Nat → Volume → Option Ptr → Option Volume
  | _, s, none => some s
  | 0, _, some _ => none
  | fuel + 1, s, some c => do
    let next := s.nextSibling c
    let s ← destroyNode fuel s c
    destroyChildren fuel s next

end

/-! ## Directories -/

section

variable (s : Volume) (env : Env) (d : Ptr) (name : Name)

/-- `ramfsFindChild`, with the sibling before the child. -/
def findChild : Option (Option (Option Ptr × Ptr)) :=
  firstWith s.nextSibling (fun c => name = (s.node c).name) s.fresh none (s.firstChild d)

/-- The pointer that leads to the child is moved on to the next one. -/
def spliceOut (previous : Option Ptr) (c : Ptr) : Volume :=
  match previous with
  | some b => { s with nextSibling := update s.nextSibling b (s.nextSibling c) }
  | none => { s with firstChild := update s.firstChild d (s.nextSibling c) }

def detachChild (d target : Ptr) : Option (Volume × Bool) := do
  match ← firstWith s.nextSibling (fun c => c = target) s.fresh none (s.firstChild d) with
  | none => return (s, false)
  | some (previous, c) =>
    let s := spliceOut s d previous c
    return ({ s with nextSibling := update s.nextSibling c none }, true)

def isDescendantOf (p possibleAncestor : Ptr) : Option Bool :=
  contains s.parent possibleAncestor s.fresh (some p)

/-- A directory's `mtime` and `ctime` after a change of its entries. -/
def touch : Volume := s.setNode d { s.node d with mtime := env.now, ctime := env.now }

/-- The node becomes the first child. -/
def insertChild (d p : Ptr) : Volume :=
  { s with
    parent := update s.parent p (some d)
    nextSibling := update s.nextSibling p (s.firstChild d)
    firstChild := update s.firstChild d (some p) }

/-- The checks that every call makes that adds a name to a directory. -/
def mayAdd : Option Bool :=
  if isDotOrDotDot name then some false
  else if (s.node d).type ≠ .directory then some false
  else if name = [] then some false
  else (findChild s d name).map (·.isNone)

/-- `nodeCreate`, `nodeMkdir` and `nodeMknod` after their checks: a new node with the given
device number, as the first child. -/
def addEntry (type : FileType) (mode rdev : Nat) : Volume × Option Ptr :=
  match createNode s env name type mode with
  | (s, none) => (s, none)
  | (s, some p) =>
    let s := s.setNode p { s.node p with rdev }
    (touch (insertChild s d p) env d, some p)

def nodeCreate (mode : Nat) : Option (Volume × Option Ptr) := do
  if ← mayAdd s d name then return addEntry s env d name .regular mode 0
  else return (s, none)

def nodeMkdir (mode : Nat) : Option (Volume × Option Ptr) := do
  if ← mayAdd s d name then return addEntry s env d name .directory mode 0
  else return (s, none)

/-- The type is taken from the format bits of the mode. -/
def mknodType (mode : Nat) : Option FileType :=
  match mode &&& 0xF000 with
  | 0x1000 => some .pipe
  | 0x2000 => some .charDevice
  | 0x6000 => some .blockDevice
  | 0 => some .regular
  | 0x8000 => some .regular
  | _ => none

def nodeMknod (mode dev : Nat) : Option (Volume × Option Ptr) := do
  if ← mayAdd s d name then
    match mknodType mode with
    | none => return (s, none)
    | some type =>
      return addEntry s env d name type (mode &&& 0o7777)
        (if type = .charDevice ∨ type = .blockDevice then dev else 0)
  else return (s, none)

def nodeSymlink (name target : Name) : Option (Volume × Option Ptr) := do
  if ← mayAdd s d name then
    if 255 < target.length then return (s, none)
    else
      match createNode s env name .symlink 0o777 with
      | (s, none) => return (s, none)
      | (s, some p) =>
        if !env.granted 1 then
          let s ← destroyNode (s.fresh + 1) s p
          return (s, none)
        else
          let t := s.fresh
          let s := s.addText target
          let s := s.setNode p { s.node p with data := some t, size := target.length }
          return (touch (insertChild s d p) env d, some p)
  else return (s, none)

/-- `nodeUnlink` and `nodeRmdir`, which refuse different children. -/
def removeChild (refuses : Ptr → Bool) (d : Ptr) (name : Name) : Option (Volume × Bool) := do
  if isDotOrDotDot name then return (s, false)
  else if (s.node d).type ≠ .directory then return (s, false)
  else
    match ← findChild s d name with
    | none => return (s, false)
    | some (previous, c) =>
      if refuses c then return (s, false)
      else
        let s ← destroyNode (s.fresh + 1) (touch (spliceOut s d previous c) env d) c
        return (s, true)

def nodeUnlink : Option (Volume × Bool) :=
  removeChild s env (fun c => (s.node c).type = .directory) d name

def nodeRmdir : Option (Volume × Bool) :=
  removeChild s env (fun c => (s.node c).type ≠ .directory || (s.firstChild c).isSome) d name

/-- The node that a rename replaces is in the way. -/
def mayReplace (source target : Ptr) : Bool :=
  let a := s.node source
  let b := s.node target
  !(b.type = .directory && (s.firstChild target).isSome)
    && !(a.type = .directory && b.type ≠ .directory)
    && !(a.type ≠ .directory && b.type = .directory)

/-- The rest of a rename, once the new name is free. -/
def moveEntry (source d' : Ptr) (name : Name) : Option (Volume × Bool) := do
  match ← detachChild s d source with
  | (s, false) => return (s, false)
  | (s, true) =>
    let s := s.setNode source { s.node source with name := name.take 255, ctime := env.now }
    return (touch (touch (insertChild s d' source) env d) env d', true)

def nodeRename (d' : Ptr) (name' : Name) : Option (Volume × Bool) := do
  if name' = [] then return (s, false)
  else if isDotOrDotDot name || isDotOrDotDot name' then return (s, false)
  else if (s.node d).type ≠ .directory ∨ (s.node d').type ≠ .directory then return (s, false)
  else
    match ← findChild s d name with
    | none => return (s, false)
    | some (_, source) =>
      if d = d' ∧ name = name' then return (s, true)
      else if (s.node source).type = .directory && (← isDescendantOf s d' source) then
        return (s, false)
      else
        match ← findChild s d' name' with
        | none => moveEntry s env d source d' name'
        | some (_, target) =>
          if target = source then return (s, true)
          else if (s.node source).type = .regular ∧ (s.node target).type = .regular ∧
              (s.node source).data = (s.node target).data then return (s, true)
          else if !mayReplace s source target then return (s, false)
          else
            match ← detachChild s d' target with
            | (s, false) => return (s, false)
            | (s, true) =>
              let s ← destroyNode (s.fresh + 1) s target
              moveEntry s env d source d' name'

/-- The node of a hard link.  `uid`, `gid` and `rdev` are not set, and are what the block
holds. -/
def Node.link (env : Env) (name : Name) (source : Node) (f : Ptr) (d : FileData) : Node where
  name := name.take 255
  type := .regular
  inode := source.inode
  mode := d.mode
  size := d.contents.length
  data := some f
  atime := d.atime
  mtime := d.mtime
  ctime := env.now
  uid := allocPoison32
  gid := allocPoison32
  rdev := allocPoison64

def nodeLink (d' : Ptr) (name' : Name) : Option (Volume × Bool) := do
  if name = [] ∨ name' = [] then return (s, false)
  else if isDotOrDotDot name || isDotOrDotDot name' then return (s, false)
  else if (s.node d).type ≠ .directory ∨ (s.node d').type ≠ .directory then return (s, false)
  else if (← findChild s d' name').isSome then return (s, false)
  else
    match ← findChild s d name with
    | none => return (s, false)
    | some (_, source) =>
      match (s.node source).type, (s.node source).data with
      | .regular, some f =>
        if !env.granted 0 then return (s, false)
        else
          let p := s.fresh
          let s := s.addNode (Node.link env name' (s.node source) f (s.file f))
          let s := s.setFile f { s.file f with links := (s.file f).links + 1, ctime := env.now }
          let s := touch (insertChild s d' p) env d'
          return (s.setNode source { s.node source with ctime := env.now }, true)
      | _, _ => return (s, false)

end

/-! ## Files -/

structure FileStats where
  size : Nat
  type : FileType
  mode : Nat
  inode : Nat
  links : Nat
  atime : Nat
  mtime : Nat
  ctime : Nat
  uid : Nat
  gid : Nat
  rdev : Nat
deriving DecidableEq, Repr

section

variable (s : Volume) (env : Env)

/-- The loop of `ramfsDirectoryLinks`. -/
def countDirectories : Nat → Option Ptr → Option Nat
  | _, none => some 0
  | 0, some _ => none
  | fuel + 1, some c => do
    let rest ← countDirectories fuel (s.nextSibling c)
    return (if (s.node c).type = .directory then 1 else 0) + rest

def nodeStat (p : Ptr) : Option FileStats :=
  if p ∉ s.nodes then none
  else
    let n := s.node p
    match n.type, n.data with
    | .regular, some f =>
      if f ∉ s.files then none
      else
        let d := s.file f
        some ⟨d.contents.length, n.type, d.mode, n.inode, d.links, d.atime, d.mtime, d.ctime, n.uid,
          n.gid, n.rdev⟩
    | _, _ => do
      let links ←
        if n.type = .directory then (countDirectories s s.fresh (s.firstChild p)).map (2 + ·)
        else some 1
      return ⟨n.size, n.type, n.mode, n.inode, links, n.atime, n.mtime, n.ctime, n.uid,
        n.gid, n.rdev⟩

/-- The file data behind a node; the second `none` is a node that has none. -/
def fileOf (p : Ptr) : Option (Option Ptr) :=
  if p ∉ s.nodes then none
  else
    match (s.node p).type, (s.node p).data with
    | .regular, some f => if f ∈ s.files then some (some f) else none
    | _, _ => some none

def nodeRead (p : Ptr) (size offset : Nat) : Option (Volume × Option (List UInt8)) := do
  match ← fileOf s p with
  | none => return (s, none)
  | some f =>
    let d := s.file f
    if d.contents.length ≤ offset then return (s, some [])
    else
      let s := s.setFile f { d with atime := env.now }
      return (s.setNode p { s.node p with atime := env.now },
        some ((d.contents.drop offset).take size))

/-- The contents with the bytes written at the offset, behind a hole of zeros if the offset is
past the end. -/
def overwrite (contents bytes : List UInt8) (offset : Nat) : List UInt8 :=
  contents.take offset ++ List.replicate (offset - contents.length) 0 ++ bytes
    ++ contents.drop (offset + bytes.length)

/-- The capacity of a file that has to hold `newSize` bytes: it doubles up to steps of 1 MiB. -/
def grownCapacity (capacity newSize : Nat) : Nat :=
  (max (capacity + min capacity (2 ^ 20)) newSize + 4095) / 4096 * 4096

def nodeWrite (p : Ptr) (bytes : List UInt8) (offset : Nat) : Option (Volume × Option Nat) := do
  match ← fileOf s p with
  | none => return (s, none)
  | some f =>
    let d := s.file f
    let newSize := offset + bytes.length
    if d.capacity < newSize && !env.granted 0 then return (s, none)
    else
      let s := s.setFile f { d with
        contents := overwrite d.contents bytes offset
        capacity := if d.capacity < newSize then grownCapacity d.capacity newSize else d.capacity
        mtime := env.now
        ctime := env.now }
      return (s.setNode p { s.node p with
        size := if d.contents.length < newSize then newSize else (s.node p).size
        mtime := env.now
        ctime := env.now }, some bytes.length)

def nodeTruncate (p : Ptr) (size : Nat) : Option (Volume × Bool) := do
  match ← fileOf s p with
  | none => return (s, false)
  | some f =>
    let d := s.file f
    if size = d.contents.length then return (s, true)
    else if size ≠ 0 && !env.granted 0 then return (s, false)
    else
      let s := s.setFile f { d with
        contents := d.contents.take size ++ List.replicate (size - d.contents.length) 0
        capacity := size
        mtime := env.now
        ctime := env.now }
      return (s.setNode p { s.node p with size, mtime := env.now, ctime := env.now }, true)

end

end InstantOS.RamFs

import Mathlib.Data.List.TakeWhile
import Mathlib.Data.List.Infix

/-!
# Names in a FAT32 directory

A long name stands before its short entry in pieces of thirteen characters, the last piece first,
and `findEntry` and `nodeReaddir` put the pieces together in a buffer.  Each piece that they store
is followed by a zero, which falls on the first character of the piece stored before it: of a
longer name the first thirteen characters are left.
-/

namespace InstantOS.Fat32

open List

/-! ## Entries -/

structure FAT32DirEntry where
  name : List UInt8
  attr : UInt8
  /-- `fstClusHI` and `fstClusLO`. -/
  cluster : UInt32
  short : attr ≠ 0x0F
deriving DecidableEq

/-- One of the three loops over the characters of a piece. -/
def copied (units : List UInt16) : List UInt8 :=
  (units.takeWhile fun u => u ≠ 0 && u ≠ 0xFFFF).map UInt16.toUInt8

/-- A piece of a long name, which is stored in the 256 bytes of the buffer with its zero. -/
structure FAT32LFNEntry where
  order : UInt8
  name1 : List UInt16
  name2 : List UInt16
  name3 : List UInt16
  fits : order &&& 0x1F ≠ 0 ∧ ((order &&& 0x1F).toNat - 1) * 13 +
    (copied name1 ++ copied name2 ++ copied name3).length < 256
deriving DecidableEq

/-- The 32 bytes of an entry, a piece if its attributes are `FAT32_ATTR_LONG_NAME`. -/
inductive Entry
  | short (e : FAT32DirEntry)
  | long (e : FAT32LFNEntry)
deriving DecidableEq

/-- The first byte of the name, which is the order of a piece. -/
def Entry.first : Entry → UInt8
  | short e => e.name.headD 0
  | long e => e.order

/-- `name[0] == 0xE5`.  A `char` is signed on the target. -/
def Entry.removed (e : Entry) : Bool := e.first.toInt8.toInt = 0xE5

def storePiece (longName : List UInt8) (e : FAT32LFNEntry) : List UInt8 :=
  let offset := ((e.order &&& 0x1F).toNat - 1) * 13
  let piece := copied e.name1 ++ copied e.name2 ++ copied e.name3
  longName.take offset ++ piece ++ 0 :: longName.drop (offset + piece.length + 1)

def cString (buffer : List UInt8) : List UInt8 := buffer.takeWhile (· ≠ 0)

/-- `longName[0] = '\0'`. -/
def cleared (longName : List UInt8) : List UInt8 := 0 :: longName.tail

def lower (c : UInt8) : UInt8 := if 65 ≤ c ∧ c ≤ 90 then c + 32 else c

def shortName (e : FAT32DirEntry) : List UInt8 :=
  cString (((e.name.take 8).takeWhile (· ≠ 32)).map lower ++
    if e.name.getD 8 0 ≠ 32 then 46 :: ((e.name.drop 8).takeWhile (· ≠ 32)).map lower else [])

def fatNameEquals (a b : List UInt8) : Bool := a.map lower = b.map lower

/-! ## `findEntry` and `nodeReaddir` -/

/-- The body of the loops over the entries: they differ in what they do at a name, when they go
on and what they return at the end. -/
def step {σ ρ : Type} (more : σ → Bool) (named : σ → List UInt8 → FAT32DirEntry → Except ρ σ)
    (done : σ → ρ) (s : List UInt8 × σ) (e : Entry) : Except ρ (List UInt8 × σ) :=
  if more s.2 = false ∨ e.first = 0 then .error (done s.2)
  else if e.removed then .ok (cleared s.1, s.2)
  else match e with
    | .long e => .ok (storePiece s.1 e, s.2)
    | .short e =>
      if e.attr &&& 0x08 ≠ 0 then .ok (cleared s.1, s.2)
      else (named s.2 (if cString s.1 ≠ [] then cString s.1 else shortName e) e).map
        (cleared s.1, ·)

def returned {σ ρ : Type} (done : σ → ρ) : Except ρ (List UInt8 × σ) → ρ
  | .error r => r
  | .ok s => done s.2

def blank : List UInt8 := replicate 256 0

/-- The loop over the clusters of a directory, from an empty buffer. -/
def scan {σ ρ : Type} (body : List UInt8 × σ → Entry → Except ρ (List UInt8 × σ)) (done : σ → ρ)
    (s : σ) (dir : List (List Entry)) : ρ :=
  returned done (dir.foldlM (fun s entries => entries.foldlM body s) (blank, s))

def findStep (name : List UInt8) :
    List UInt8 × Unit → Entry → Except (Option FAT32DirEntry) (List UInt8 × Unit) :=
  step (fun _ => true) (fun _ found e => if fatNameEquals name found then .error (some e)
    else .ok ())
    fun _ => none

def findEntry (name : List UInt8) : List (List Entry) → Option FAT32DirEntry :=
  scan (findStep name) (fun _ => none) ()

/-- An entry that `nodeReaddir` reports. -/
structure Listed where
  name : List UInt8
  inode : UInt32
  directory : Bool
deriving DecidableEq

def report (name : List UInt8) (e : FAT32DirEntry) : Listed :=
  ⟨name, e.cluster, e.attr &&& 0x10 ≠ 0⟩

def listStep (count : Nat) : List UInt8 × List Listed → Entry →
    Except (List Listed) (List UInt8 × List Listed) :=
  step (fun out => out.length < count) (fun out name e => .ok (out ++ [report name e])) id

def nodeReaddir (count : Nat) : List (List Entry) → List Listed := scan (listStep count) id []

/-! ## Long names -/

/-- A name of 1 to 255 ASCII characters. -/
structure LongName (name : List UInt8) : Prop where
  nonempty : name ≠ []
  short : name.length ≤ 255
  ascii : ∀ c ∈ name, c ≠ 0 ∧ c < 128

/-- The thirteen characters from `13 * k` on. -/
def part (name : List UInt8) (k : Nat) : List UInt8 := (name.drop (13 * k)).take 13

/-- The characters, and behind the end of the name a zero and padding. -/
def Holds (units : List UInt16) (chars : List UInt8) : Prop :=
  ∃ pad, units = chars.map UInt8.toUInt16 ++ pad ∧ ∀ u ∈ pad, u = 0 ∨ u = 0xFFFF

/-- The piece with the part `k` of the name. -/
structure IsPiece (name : List UInt8) (k : Nat) (e : FAT32LFNEntry) : Prop where
  order : (e.order &&& 0x1F).toNat = k + 1
  name1 : Holds e.name1 ((part name k).take 5)
  name2 : Holds e.name2 (((part name k).drop 5).take 6)
  name3 : Holds e.name3 (((part name k).drop 11).take 2)

/-- The first parts of the name, the last one first. -/
inductive Pieces (name : List UInt8) : Nat → List Entry → Prop
  | nil : Pieces name 0 []
  | cons {k : Nat} {e : FAT32LFNEntry} {es : List Entry} : IsPiece name k e → Pieces name k es →
      Pieces name (k + 1) (.long e :: es)

/-- The short entry of a file or directory. -/
def IsShort (e : FAT32DirEntry) : Prop :=
  (Entry.short e).first ≠ 0 ∧ e.attr &&& 0x08 = 0

/-- Behind the entries of `pre`, which it reports as `out`, `nodeReaddir` reports the short entry
under this name, and `findEntry` compares with the name and goes on to `post`. -/
def Decodes (name : List UInt8) (short : FAT32DirEntry) (dir : List (List Entry))
    (pre post : List Entry) (out : List Listed) : Prop :=
  nodeReaddir (out.length + 1) dir = out ++ [report name short] ∧
    ∀ query l, pre.foldlM (findStep query) (blank, ()) = .ok (l, ()) →
      ∃ l', findEntry query dir = if fatNameEquals query name then some short
        else returned (fun _ => none) (post.foldlM (findStep query) (l', ()))

variable {σ ρ : Type} {m : σ → Bool} {named : σ → List UInt8 → FAT32DirEntry → Except ρ σ}
  {done : σ → ρ} {s : σ} {name l : List UInt8} {es pre post : List Entry} {k n count : Nat}
  {e : FAT32LFNEntry} {short : FAT32DirEntry} {dir : List (List Entry)} {out : List Listed}

/-- **No entry is taken for a removed one.** -/
@[simp] theorem Entry.removed_eq_false (e : Entry) : e.removed = false := by
  have hlt := e.first.toInt8.toInt_lt
  exact decide_eq_false (by omega)

/-- **The loops over clusters and entries are one loop over the entries.** -/
theorem scan_eq (body : List UInt8 × σ → Entry → Except ρ (List UInt8 × σ)) :
    scan body done s dir = returned done (dir.flatten.foldlM body (blank, s)) := by
  have hflat : ∀ s, dir.foldlM (fun s entries => entries.foldlM body s) s =
      dir.flatten.foldlM body s := by
    induction dir with
    | nil => exact fun _ => rfl
    | cons entries dir ih => simp [ih, foldlM_append]
  rw [scan, hflat]

theorem Holds.copied {units : List UInt16} (h : Holds units l) (hl : ∀ c ∈ l, c ≠ 0) :
    copied units = l := by
  obtain ⟨pad, rfl, hpad⟩ := h
  have hstop : pad.takeWhile (fun u => u ≠ 0 && u ≠ 0xFFFF) = [] := by
    cases pad with
    | nil => rfl
    | cons u pad => rcases hpad u mem_cons_self with rfl | rfl <;> rfl
  rw [Fat32.copied, takeWhile_append_of_pos, hstop, append_nil, map_map]
  · exact (map_congr_left fun c _ => UInt8.toUInt8_toUInt16 c).trans (map_id _)
  · intro u hu
    obtain ⟨c, hc, rfl⟩ := mem_map.mp hu
    have hne := hl c hc
    have hlt := c.toNat_lt
    simp only [ne_eq, ← UInt16.toNat_inj, ← UInt8.toNat_inj, UInt8.toNat_toUInt16] at hne ⊢
    simpa using ⟨hne, by omega⟩

section

variable (hname : LongName name)

include hname

theorem LongName.part (k : Nat) : ∀ c ∈ part name k, c ≠ 0 := fun c hc =>
  (hname.ascii c (mem_of_mem_drop (mem_of_mem_take hc))).1

/-- Of the three arrays of a piece the loops read the part again. -/
theorem IsPiece.store (h : IsPiece name k e) (l : List UInt8) : storePiece l e =
      l.take (13 * k) ++ part name k ++ 0 :: l.drop (13 * k + (part name k).length + 1) := by
  have hchars := hname.part k
  have hlength : (Fat32.part name k).length ≤ 5 + 6 + 2 := length_take_le _ _
  have hpiece : copied e.name1 ++ copied e.name2 ++ copied e.name3 = Fat32.part name k := by
    rw [h.name1.copied fun c hc => hchars c (mem_of_mem_take hc),
      h.name2.copied fun c hc => hchars c (mem_of_mem_drop (mem_of_mem_take hc)),
      h.name3.copied fun c hc => hchars c (mem_of_mem_drop (mem_of_mem_take hc)),
      ← take_add, ← take_add, take_of_length_le hlength]
  rw [storePiece, h.order, hpiece, Nat.add_sub_cancel, Nat.mul_comm]

/-- **Of the pieces the first one is left**: its zero ends the string. -/
theorem Pieces.run (h : Pieces name n es) (hn : n ≠ 0) (hs : m s) (l : List UInt8) :
    ∃ l', cString l' = name.take 13 ∧ es.foldlM (step m named done) (l, s) = .ok (l', s) := by
  induction h generalizing l with
  | nil => exact absurd rfl hn
  | @cons k e es he hes ih =>
    have hused : e.order ≠ 0 := fun hzero => e.fits.1 (by rw [hzero]; rfl)
    have hstep : step m named done (l, s) (.long e) = .ok (storePiece l e, s) := by
      simp [step, Entry.first, hs, hused]
    rw [foldlM_cons, hstep]
    cases hes with
    | nil =>
      refine ⟨_, ?_, rfl⟩
      rw [he.store hname, Nat.mul_zero, take_zero, nil_append, cString,
        takeWhile_append_of_pos fun c hc => decide_eq_true (hname.part 0 c hc)]
      simp [Fat32.part]
    | cons => exact ih (Nat.succ_ne_zero _) _

/-- The loops come to the short entry with thirteen characters of the name. -/
theorem Pieces.shown (h : Pieces name ((name.length + 12) / 13) es) (hshort : IsShort short)
    (hs : m s) (l : List UInt8) (rest : List Entry) :
    ∃ l', (es ++ .short short :: rest).foldlM (step m named done) (l, s) =
      named s (name.take 13) short >>= fun s' => rest.foldlM (step m named done) (l', s') := by
  have hpos := length_pos_of_ne_nil hname.nonempty
  obtain ⟨l', hstring, hrun⟩ := h.run hname (by omega) hs l
  have hnonempty : name.take 13 ≠ [] := by simpa using hname.nonempty
  have hstep : step m named done (l', s) (.short short) =
      (named s (name.take 13) short).map (cleared l', ·) := by
    simp [step, hs, hshort.1, hshort.2, hstring, hnonempty]
  refine ⟨cleared l', ?_⟩
  rw [foldlM_append, hrun]
  change (step m named done (l', s) (.short short)).bind _ = _
  rw [hstep]
  cases named s (name.take 13) short <;> rfl

/-- **A long name is decoded whole just when it fits in one piece**, wherever in a directory the
loops come to its entries. -/
theorem long_name_whole_iff (hpieces : Pieces name ((name.length + 12) / 13) es)
    (hshort : IsShort short) (hdir : dir.flatten = pre ++ (es ++ .short short :: post))
    (hpre : pre.foldlM (listStep (out.length + 1)) (blank, []) = .ok (l, out)) :
    Decodes name short dir pre post out ↔ name.length ≤ 13 := by
  have hcut : Decodes (name.take 13) short dir pre post out := by
    constructor
    · obtain ⟨l', hrun⟩ := hpieces.shown hname hshort (s := out) (ρ := List Listed)
        (m := fun o => o.length < out.length + 1) (by simp) l post
      rw [nodeReaddir, scan_eq, hdir, foldlM_append, hpre]
      refine (congrArg (returned id) hrun).trans ?_
      cases post with
      | nil => rfl
      | cons => simp [bind, Except.bind, step, returned]
    · intro query l hpre
      obtain ⟨l', hrun⟩ := hpieces.shown hname hshort (s := ()) (ρ := Option FAT32DirEntry)
        (m := fun _ => true) rfl l post
      refine ⟨l', ?_⟩
      rw [findEntry, scan_eq, hdir, foldlM_append, hpre]
      refine (congrArg (returned _) hrun).trans ?_
      split_ifs <;> simp [*, bind, Except.bind, returned, findStep]
  constructor
  · intro h
    have hsame : report (name.take 13) short = report name short := by
      simpa using hcut.1.symm.trans h.1
    have hlength := congrArg (length ∘ Listed.name) hsame
    simp only [Function.comp_apply, report, length_take] at hlength
    omega
  · intro hlength
    rwa [take_of_length_le hlength] at hcut

end

def letters (n : Nat) : List UInt8 := (range n).map fun k => 97 + UInt8.ofNat k

def sampleShort : FAT32DirEntry := ⟨letters 11, 0x20, 9, by decide⟩

/-- The piece with the letters from `a` to `m`. -/
def samplePiece : FAT32LFNEntry :=
  ⟨1, [97, 98, 99, 100, 101], [102, 103, 104, 105, 106, 107], [108, 109], by decide⟩

theorem samplePiece_holds (n : Nat) (h : part (letters n) 0 = letters 13) :
    IsPiece (letters n) 0 samplePiece := by
  refine ⟨by decide, ⟨[], ?_, by simp⟩, ⟨[], ?_, by simp⟩, ⟨[], ?_, by simp⟩⟩ <;> rw [h] <;> decide

theorem long_name_whole_letters :
    nodeReaddir 1 [[.long samplePiece], [.short sampleShort]] =
      [report (letters 13) sampleShort] := by
  have hdir : [[.long samplePiece], [.short sampleShort]].flatten =
      ([] : List Entry) ++ ([.long samplePiece] ++ .short sampleShort :: []) := rfl
  have hpre : ([] : List Entry).foldlM (listStep 1) (blank, []) = .ok (blank, []) := rfl
  have hshort : IsShort sampleShort := ⟨by decide, by decide⟩
  have hwhole := long_name_whole_iff ⟨by decide, by decide, by decide +kernel⟩
    (.cons (samplePiece_holds 13 (by decide)) .nil) hshort hdir hpre
  exact (hwhole.mpr (by decide)).1

/-- A name of fourteen letters comes back as one of thirteen, and is not found. -/
theorem long_name_cut :
    ¬ ∀ (name : List UInt8) (es : List Entry) (short : FAT32DirEntry), LongName name →
      Pieces name ((name.length + 12) / 13) es → IsShort short →
      nodeReaddir 1 [es ++ [.short short]] = [report name short] ∧
        findEntry name [es ++ [.short short]] = some short := by
  intro h
  have hlast : IsPiece (letters 14) 1 ⟨0x42, [110, 0, 0xFFFF, 0xFFFF, 0xFFFF], replicate 6 0xFFFF,
      replicate 2 0xFFFF, by decide⟩ :=
    ⟨by decide, ⟨[0, 0xFFFF, 0xFFFF, 0xFFFF], by decide, by simp⟩, ⟨_, rfl, by simp⟩,
      ⟨_, rfl, by simp⟩⟩
  have hboth := h (letters 14) _ sampleShort ⟨by decide, by decide, by decide +kernel⟩
    (.cons hlast (.cons (samplePiece_holds 14 (by decide)) .nil))
    ⟨by decide, by decide⟩
  exact absurd hboth.1 (by decide)

end InstantOS.Fat32

import Mathlib.Algebra.Ring.Nat
import Mathlib.Data.List.Range
import Mathlib.Data.Nat.Find

/-!
# Reading a FAT32 file

`nodeRead` reads clusters that follow each other on the disk in one go, and takes a cluster into
such a run for its number alone.  If the sectors of that number are not in the partition the whole
run fails, where a reader of one cluster at a time returns the clusters before it.
`run_reading_iff` says for which files and requests the two agree.
-/

namespace InstantOS.Fat32

open List

def FAT32_EOC : Nat := 0x0FFFFFF8

/-- A volume in a partition of `length` bytes. -/
structure Volume where
  bytesPerSector : Nat
  sectorsPerCluster : Nat
  dataStart : Nat
  length : Nat
  byte : Nat → UInt8
  /-- The FAT; `FAT32_EOC` where it cannot be read. -/
  getNextCluster : Nat → Nat
  geometry : 0 < bytesPerSector ∧ 0 < sectorsPerCluster
  masked : ∀ cluster, getNextCluster cluster < 2 ^ 28

structure FAT32Node where
  cluster : Nat
  size : Nat
  isDirectory : Bool
  small : size < 2 ^ 32

def isLink (cluster : Nat) : Bool := 2 ≤ cluster ∧ cluster < FAT32_EOC

namespace Volume

variable (v : Volume)

def clusterSize : Nat := v.bytesPerSector * v.sectorsPerCluster

def clusterToSector (cluster : Nat) : Nat :=
  (v.dataStart + (cluster - 2) * v.sectorsPerCluster) % 2 ^ 32

def content (sector count : Nat) : List UInt8 :=
  (range (count * v.bytesPerSector)).map fun i => v.byte (sector * v.bytesPerSector + i)

theorem content_add (sector a b : Nat) :
    v.content sector (a + b) = v.content sector a ++ v.content (sector + a) b := by
  simp [content, Nat.add_mul, range_add, Nat.add_assoc]

/-- The device is a `PartitionBlockDevice`. -/
def readSectors (sector count : Nat) : Option (List UInt8) :=
  let offset := sector * v.bytesPerSector
  if v.length < offset ∨ v.length - offset < count * v.bytesPerSector then none
  else some (v.content sector count)

def readCluster (cluster : Nat) : Option (List UInt8) :=
  if isLink cluster then v.readSectors (v.clusterToSector cluster) v.sectorsPerCluster else none

/-- The loop over the clusters before the offset. -/
def skip : Nat → Nat → Nat
  | 0, cluster => cluster
  | i + 1, cluster => if isLink cluster then skip i (v.getNextCluster cluster) else cluster

/-- The loop over a run: its length and the cluster behind it.  No more clusters than bytes are
left. -/
def extendRun (cluster left : Nat) : Nat → Nat × Nat → Nat × Nat
  | 0, r => r
  | fuel + 1, (run, next) =>
    if next = (cluster + run) % 2 ^ 32 ∧ (run + 1) * v.clusterSize ≤ left then
      extendRun cluster left fuel (run + 1, v.getNextCluster next)
    else (run, next)

/-- The main loop, of which each round reads a byte at least.  `buffer` says whether there is
memory for `clusterBuffer`; without `runs`, each cluster is a run. -/
def readLoop (runs buffer : Bool) : Nat → Nat → Nat → Nat → List UInt8
  | 0, _, _, _ => []
  | fuel + 1, cluster, offsetInCluster, left =>
    if left = 0 ∨ isLink cluster = false then []
    else if offsetInCluster = 0 ∧ v.clusterSize ≤ left then
      let r := v.extendRun cluster left (if runs then left else 0) (1, v.getNextCluster cluster)
      match v.readSectors (v.clusterToSector cluster) (r.1 * v.sectorsPerCluster % 2 ^ 32) with
      | none => []
      | some bytes => bytes ++ readLoop runs buffer fuel r.2 0 (left - r.1 * v.clusterSize)
    else if buffer = false then []
    else match v.readCluster cluster with
      | none => []
      | some bytes => (bytes.drop offsetInCluster).take left ++ readLoop runs buffer fuel
          (v.getNextCluster cluster) 0 (left - (v.clusterSize - offsetInCluster))

/-- `nodeRead`, and without `runs` a reader that takes one cluster at a time. -/
def nodeRead (runs buffer : Bool) (node : FAT32Node) (size offset : Nat) : Option (List UInt8) :=
  if node.isDirectory then none
  else if node.size ≤ offset then some []
  else
    let size := if node.size < (offset + size) % 2 ^ 64 then node.size - offset else size
    some (v.readLoop runs buffer size (v.skip (offset / v.clusterSize) node.cluster)
      (offset % v.clusterSize) size)

/-! ## Where the two readers agree -/

/-- The cluster `k` links behind `c`. -/
def chain (c k : Nat) : Nat := v.getNextCluster^[k] c

/-- The sectors of the cluster lie in the partition. -/
def Readable (c : Nat) : Prop :=
  (v.clusterToSector c + v.sectorsPerCluster) * v.bytesPerSector ≤ v.length
deriving Decidable

/-- The number behind `c` is that of a cluster, which follows `c` in the partition. -/
def Adjoins (c : Nat) : Prop :=
  isLink (c + 1) ∧ v.clusterToSector (c + 1) = v.clusterToSector c + v.sectorsPerCluster ∧
    v.Readable (c + 1)

/-- Wherever a reader of one cluster at a time from `c` on finds a link to the number behind, and
wants both clusters as a whole, the second one adjoins. -/
def Unbroken (c left : Nat) : Prop :=
  ∀ k, (k + 2) * v.clusterSize ≤ left →
    (∀ j ≤ k, isLink (v.chain c j) ∧ v.Readable (v.chain c j)) →
    v.chain c (k + 1) = v.chain c k + 1 → v.Adjoins (v.chain c k)

variable {v} {buffer : Bool} {c run next left : Nat}

theorem clusterSize_pos : 0 < v.clusterSize := Nat.mul_pos v.geometry.1 v.geometry.2

theorem Unbroken.of_short (h : left < 2 * v.clusterSize) : v.Unbroken c left := fun k hk =>
  absurd ((Nat.mul_le_mul_right _ (Nat.le_add_left 2 k)).trans hk) (Nat.not_le_of_lt h)

theorem Unbroken.of_stop (h : ¬ (isLink c ∧ v.Readable c)) : v.Unbroken c left :=
  fun k _ hreached => absurd (hreached 0 (Nat.zero_le k)) h

theorem readSectors_eq (sector count : Nat) : v.readSectors sector count =
    if (sector + count) * v.bytesPerSector ≤ v.length then some (v.content sector count)
    else none := by
  rw [readSectors, Nat.add_mul]
  split <;> split <;> first | rfl | omega

theorem length_content (sector count : Nat) :
    (v.content sector count).length = count * v.bytesPerSector := by
  simp [content]

theorem clusterToSector_succ (hc : 2 ≤ c) :
    v.clusterToSector (c + 1) = (v.clusterToSector c + v.sectorsPerCluster) % 2 ^ 32 := by
  rw [clusterToSector, clusterToSector, Nat.mod_add_mod, Nat.add_assoc, ← Nat.succ_mul]
  congr 3
  omega

/-- The number of sectors of a run that is wanted is not truncated. -/
theorem sectors_lt (hleft : left < 2 ^ 32) (hfits : run * v.clusterSize ≤ left) :
    run * v.sectorsPerCluster % 2 ^ 32 = run * v.sectorsPerCluster := by
  apply Nat.mod_eq_of_lt
  have hsectors := Nat.le_mul_of_pos_left (run * v.sectorsPerCluster) v.geometry.1
  rw [Nat.mul_left_comm, ← clusterSize] at hsectors
  omega

/-- A run of the numbers from `c` to `c + run`, behind which the chain goes on with `next`. -/
structure Run (v : Volume) (c left run next : Nat) : Prop where
  numbers : ∀ j ≤ run, v.chain c j = c + j
  link : next = v.chain c (run + 1)
  fits : (run + 1) * v.clusterSize ≤ left

theorem Run.lt (h : Run v c left run next) (hc : isLink c) : c + run < 2 ^ 28 := by
  cases run with
  | zero =>
    have hlt := (of_decide_eq_true hc).2
    rw [FAT32_EOC] at hlt
    omega
  | succ run =>
    rw [← h.numbers _ le_rfl, chain, Function.iterate_succ_apply']
    exact v.masked _

/-- The run that the loop makes ends where no number follows that is wanted. -/
theorem extendRun_spec (hc : isLink c) (fuel : Nat) (hfuel : left ≤ run + 1 + fuel)
    (h : Run v c left run next) :
    ∃ run' next', v.extendRun c left fuel (run + 1, next) = (run' + 1, next') ∧
      Run v c left run' next' ∧
        (next' = c + (run' + 1) → left < (run' + 2) * v.clusterSize) := by
  induction fuel generalizing run next with
  | zero =>
    refine ⟨run, next, rfl, h, fun _ => ?_⟩
    have hmore := Nat.le_mul_of_pos_right (run + 2) (clusterSize_pos (v := v))
    omega
  | succ fuel ih =>
    have hlt := h.lt hc
    rw [extendRun, Nat.mod_eq_of_lt (by omega)]
    split
    case isTrue hmore =>
      obtain ⟨hnext, hfits⟩ := hmore
      refine ih (by omega) ⟨fun j hj => ?_, ?_, hfits⟩
      · rcases Nat.lt_or_eq_of_le hj with hj | rfl
        · exact h.numbers j (by omega)
        · rw [← h.link, hnext]
      · rw [h.link, chain, chain, Function.iterate_succ_apply' _ (run + 1)]
    case isFalse hend =>
      exact ⟨run, next, rfl, h, fun hnext => Nat.lt_of_not_le fun hle => hend ⟨hnext, hle⟩⟩

/-- The clusters of a run that adjoin each other, up to the number `c + m`. -/
theorem adjoined (hc : isLink c) (hread : v.Readable c) {m : Nat}
    (hadjoins : ∀ j < m, v.Adjoins (c + j)) :
    isLink (c + m) ∧ v.Readable (c + m) ∧
      v.clusterToSector (c + m) = v.clusterToSector c + m * v.sectorsPerCluster := by
  induction m with
  | zero => exact ⟨hc, hread, by simp⟩
  | succ m ih =>
    obtain ⟨-, -, hsector⟩ := ih fun j hj => hadjoins j (by omega)
    obtain ⟨hlink, hnext, hreadable⟩ := hadjoins m (Nat.lt_succ_self m)
    exact ⟨hlink, hreadable, by rw [← Nat.add_assoc, hnext, hsector, Nat.succ_mul, Nat.add_assoc]⟩

/-- One whole cluster of the reader of one at a time. -/
theorem readLoop_one (hc : isLink c) (hle : v.clusterSize ≤ left) (hleft : left < 2 ^ 32)
    (n : Nat) :
    v.readLoop false buffer (n + 1) c 0 left = if v.Readable c then
        v.content (v.clusterToSector c) v.sectorsPerCluster ++
          v.readLoop false buffer n (v.getNextCluster c) 0 (left - v.clusterSize)
      else [] := by
  have hpos := clusterSize_pos (v := v)
  rw [readLoop, if_neg (by simp [hc]; omega), if_pos ⟨rfl, hle⟩]
  have hsectors : 1 * v.sectorsPerCluster % 2 ^ 32 = 1 * v.sectorsPerCluster :=
    sectors_lt hleft (by rwa [Nat.one_mul])
  rw [Nat.one_mul] at hsectors
  simp only [Bool.false_eq_true, if_false, extendRun, hsectors, Nat.one_mul, readSectors_eq]
  by_cases hread : v.Readable c
  · rw [if_pos hread, if_pos (show _ ≤ v.length from hread)]
  · rw [if_neg hread, if_neg (show ¬ _ ≤ v.length from hread)]

/-- The reader of one cluster at a time along a run. -/
theorem Run.plain (h : Run v c left run next) (hc : isLink c) (hread : v.Readable c)
    (hleft : left < 2 ^ 32) {m : Nat} (hm : m ≤ run) (hadjoins : ∀ j < m, v.Adjoins (c + j))
    (n : Nat) :
    v.readLoop false buffer (n + (m + 1)) c 0 left =
      v.content (v.clusterToSector c) ((m + 1) * v.sectorsPerCluster) ++
        v.readLoop false buffer n (v.chain c (m + 1)) 0 (left - (m + 1) * v.clusterSize) := by
  induction m generalizing n with
  | zero =>
    have hfits := h.fits
    rw [Nat.succ_mul] at hfits
    rw [readLoop_one hc (by omega) hleft, if_pos hread]
    simp [chain]
  | succ m ih =>
    have hfits := (Nat.mul_le_mul_right v.clusterSize (Nat.succ_le_succ hm)).trans h.fits
    obtain ⟨hlink, hreadable, hsector⟩ := adjoined hc hread hadjoins
    rw [show n + (m + 1 + 1) = n + 1 + (m + 1) by omega,
      ih (by omega) (fun j hj => hadjoins j (by omega)), h.numbers (m + 1) hm,
      readLoop_one hlink (by rw [Nat.succ_mul] at hfits; omega) (by omega),
      if_pos hreadable, hsector,
      ← append_assoc, ← content_add, ← Nat.succ_mul, Nat.sub_sub, ← Nat.succ_mul,
      ← h.numbers (m + 1) hm, chain, chain, Function.iterate_succ_apply' _ (m + 1)]

/-- A run that the reader finds broken at `c + m` is one it reads otherwise. -/
theorem Run.broken (h : Run v c left run next) (hc : isLink c) (hread : v.Readable c)
    (hleft : left < 2 ^ 32) (hsmall : v.length ≤ 2 ^ 32 * v.bytesPerSector) {m : Nat} (hm : m < run)
    (hadjoins : ∀ j < m, v.Adjoins (c + j)) (hbroken : ¬ v.Adjoins (c + m)) {n : Nat}
    (hn : m + 1 ≤ n) (rest : List UInt8) :
    (match v.readSectors (v.clusterToSector c) ((run + 1) * v.sectorsPerCluster) with
      | none => []
      | some bytes => bytes ++ rest) ≠ v.readLoop false buffer n c 0 left := by
  obtain ⟨n, rfl⟩ := Nat.exists_eq_add_of_le' hn
  rw [h.plain hc hread hleft hm.le hadjoins, readSectors_eq]
  intro heq
  have hlength := congrArg List.length heq
  have hone := Nat.mul_pos v.geometry.2 v.geometry.1
  by_cases hfits : (v.clusterToSector c + (run + 1) * v.sectorsPerCluster) * v.bytesPerSector ≤
      v.length
  · -- all of the run is there, so its numbers run over the last one
    have hstop := Nat.le_of_mul_le_mul_right (hfits.trans hsmall) v.geometry.1
    obtain ⟨hlink, -, hsector⟩ := adjoined hc hread hadjoins
    have hnext := clusterToSector_succ (v := v) (of_decide_eq_true hlink).1
    have hmore := Nat.mul_le_mul_right v.sectorsPerCluster (show m + 2 ≤ run + 1 by omega)
    rw [Nat.add_mul] at hmore
    rw [Nat.mod_eq_of_lt (by have := v.geometry.2; omega)] at hnext
    have hlast : isLink (c + m + 1) = false := by
      by_contra hl
      refine hbroken ⟨by simpa using hl, hnext, ?_⟩
      refine (Nat.mul_le_mul_right _ ?_).trans hfits
      rw [hnext, hsector]
      omega
    have hnone : v.readLoop false buffer n (c + m + 1) 0 (left - (m + 1) * v.clusterSize) = [] := by
      cases n <;> simp [readLoop, hlast]
    rw [if_pos hfits, h.numbers (m + 1) hm, ← Nat.add_assoc, hnone] at hlength
    simp only [length_append, length_content, length_nil] at hlength
    have hbytes := Nat.mul_le_mul_right v.bytesPerSector hmore
    simp only [Nat.add_mul, Nat.mul_assoc, Nat.one_mul] at hbytes hlength
    omega
  · rw [if_neg hfits] at hlength
    simp only [length_nil, length_append, length_content, Nat.succ_mul, Nat.add_mul] at hlength
    omega

/-- A reader of one cluster at a time reads the clusters of a run that adjoin. -/
theorem Run.reached (h : Run v c left run next) (hc : isLink c) (hread : v.Readable c) {m : Nat}
    (hm : m ≤ run) (hadjoins : ∀ j < m, v.Adjoins (c + j)) :
    isLink (v.chain c m) ∧ v.Readable (v.chain c m) := by
  obtain ⟨hlink, hreadable, -⟩ := adjoined hc hread hadjoins
  rw [h.numbers m hm]
  exact ⟨hlink, hreadable⟩

theorem Run.not_unbroken (h : Run v c left run next) (hc : isLink c) (hread : v.Readable c)
    {m : Nat} (hm : m < run) (hadjoins : ∀ j < m, v.Adjoins (c + j))
    (hbroken : ¬ v.Adjoins (c + m)) : ¬ v.Unbroken c left := by
  intro hall
  refine absurd (h.numbers m hm.le ▸ hall m ?_ (fun j hj => ?_) ?_) hbroken
  · exact (Nat.mul_le_mul_right _ (show m + 2 ≤ run + 1 by omega)).trans h.fits
  · exact h.reached hc hread (by omega) fun i hi => hadjoins i (by omega)
  · rw [h.numbers m hm.le, h.numbers _ hm, Nat.add_assoc]

/-- What is wanted of the chain behind a run that adjoins. -/
theorem Run.unbroken_iff (h : Run v c left run next) (hc : isLink c) (hread : v.Readable c)
    (hadjoins : ∀ j < run, v.Adjoins (c + j))
    (hend : next = c + (run + 1) → left < (run + 2) * v.clusterSize) :
    v.Unbroken c left ↔ v.Unbroken next (left - (run + 1) * v.clusterSize) := by
  have hshift : ∀ k, v.chain c (run + 1 + k) = v.chain next k := by
    intro k
    rw [h.link, chain, Nat.add_comm, Function.iterate_add_apply]
    rfl
  have hfits := h.fits
  constructor
  · intro hall k hk hreached hnext
    rw [← hshift, ← hshift, ← Nat.add_assoc] at *
    refine hall (run + 1 + k) ?_ (fun j hj => ?_) hnext
    · rw [show run + 1 + k + 2 = (run + 1) + (k + 2) by omega, Nat.add_mul]
      omega
    · rcases Nat.lt_or_ge run j with hj' | hj'
      · obtain ⟨i, rfl⟩ := Nat.exists_eq_add_of_le (show run + 1 ≤ j from hj')
        rw [hshift]
        exact hreached i (by omega)
      · exact h.reached hc hread hj' fun i hi => hadjoins i (by omega)
  · intro hall k hk hreached hnext
    rcases Nat.lt_trichotomy k run with hlt | rfl | hgt
    · rw [h.numbers k hlt.le]
      exact hadjoins k hlt
    · rw [← h.link, h.numbers k le_rfl] at hnext
      have := hend hnext
      omega
    · obtain ⟨i, rfl⟩ := Nat.exists_eq_add_of_le (show run + 1 ≤ k from hgt)
      rw [hshift]
      rw [hshift, Nat.add_assoc, hshift] at hnext
      refine hall i ?_ (fun j hj => ?_) hnext
      · rw [show run + 1 + i + 2 = (run + 1) + (i + 2) by omega, Nat.add_mul] at hk
        omega
      · rw [← hshift]
        exact hreached _ (by omega)

/-- The readers of runs and of one cluster at a time, from the start of a cluster on and with
rounds enough. -/
theorem readLoop_iff (fuel n : Nat) (hfuel : left ≤ fuel) (hn : left ≤ n) (hleft : left < 2 ^ 32) :
    (v.Unbroken c left →
      v.readLoop true buffer fuel c 0 left = v.readLoop false buffer n c 0 left) ∧
    (v.length ≤ 2 ^ 32 * v.bytesPerSector →
      v.readLoop true buffer fuel c 0 left = v.readLoop false buffer n c 0 left →
      v.Unbroken c left) := by
  have hpos := clusterSize_pos (v := v)
  induction fuel generalizing c left n with
  | zero =>
    cases Nat.le_zero.mp hfuel
    exact ⟨fun _ => by cases n <;> rfl, fun _ _ => .of_short (by omega)⟩
  | succ fuel ih =>
    by_cases hend : left = 0 ∨ isLink c = false
    · refine ⟨fun _ => by cases n <;> simp [readLoop, hend], fun _ _ => ?_⟩
      rcases hend with rfl | hno
      · exact .of_short (by omega)
      · exact .of_stop (by simp [hno])
    have hc : isLink c := by simpa using (not_or.mp hend).2
    by_cases hwhole : v.clusterSize ≤ left
    · have hone : Run v c left 0 (v.getNextCluster c) :=
        ⟨by simp [chain], rfl, by simpa using hwhole⟩
      obtain ⟨run, next, hrun, h, hstop⟩ := extendRun_spec hc left (by omega) hone
      have hrounds := Nat.le_mul_of_pos_right (run + 1) hpos
      have hfits := h.fits
      rw [readLoop, if_neg hend, if_pos ⟨rfl, hwhole⟩]
      simp only [if_true, hrun, sectors_lt hleft h.fits]
      by_cases hread : v.Readable c
      · by_cases hadjoins : ∀ j < run, v.Adjoins (c + j)
        · obtain ⟨m, rfl⟩ := Nat.exists_eq_add_of_le' (show run + 1 ≤ n by omega)
          obtain ⟨-, hlast, hsector⟩ := adjoined hc hread hadjoins
          rw [Readable, hsector, Nat.add_assoc, ← Nat.succ_mul] at hlast
          rw [h.plain hc hread hleft le_rfl hadjoins, h.unbroken_iff hc hread hadjoins hstop,
            readSectors_eq, if_pos hlast, ← h.link]
          simp only [append_cancel_left_eq]
          exact ih m (by omega) (by omega) (by omega)
        · -- the first number of the run that does not adjoin
          have hex : ∃ m, m < run ∧ ¬ v.Adjoins (c + m) := by simpa using hadjoins
          classical
          obtain ⟨hm, hbroken⟩ := Nat.find_spec hex
          have hbefore : ∀ j < Nat.find hex, v.Adjoins (c + j) := fun j hj =>
            of_not_not fun hno => Nat.find_min hex hj ⟨hj.trans hm, hno⟩
          exact ⟨fun hall => absurd hall (h.not_unbroken hc hread hm hbefore hbroken),
            fun hsmall heq => absurd heq
              (h.broken hc hread hleft hsmall hm hbefore hbroken (by omega) _)⟩
      · obtain ⟨m, rfl⟩ := Nat.exists_eq_add_of_le' (show 1 ≤ n by omega)
        have hlong : ¬ (v.clusterToSector c + (run + 1) * v.sectorsPerCluster) *
            v.bytesPerSector ≤ v.length := by
          refine fun hle => hread ((Nat.mul_le_mul_right _ ?_).trans hle)
          rw [Nat.succ_mul]
          omega
        rw [readLoop_one hc hwhole hleft, if_neg hread, readSectors_eq, if_neg hlong]
        exact ⟨fun _ => rfl, fun _ _ => .of_stop fun hc => hread hc.2⟩
    · obtain ⟨m, rfl⟩ := Nat.exists_eq_add_of_le' (show 1 ≤ n by omega)
      have hrest : left - (v.clusterSize - 0) = 0 := by omega
      have hnone : ∀ runs f next, v.readLoop runs buffer f next 0 0 = [] := by
        intro runs f next
        cases f <;> simp [readLoop]
      refine ⟨fun _ => ?_, fun _ _ => .of_short (by omega)⟩
      simp only [readLoop, if_neg hend, hwhole, and_false, if_false, hrest, hnone]

variable (v) in
/-- The same from an offset in the cluster on.  What lies behind it in the cluster goes through the
buffer, and the runs start with the next cluster. -/
def UnbrokenFrom (buffer : Bool) (c offsetInCluster left : Nat) : Prop :=
  if offsetInCluster = 0 then v.Unbroken c left
  else buffer = true → isLink c → v.Readable c →
    v.Unbroken (v.getNextCluster c) (left - (v.clusterSize - offsetInCluster))

theorem readLoop_from_iff {off : Nat} (hoff : off < v.clusterSize) (hleft : left < 2 ^ 32) :
    (v.UnbrokenFrom buffer c off left →
      v.readLoop true buffer left c off left = v.readLoop false buffer left c off left) ∧
    (v.length ≤ 2 ^ 32 * v.bytesPerSector →
      v.readLoop true buffer left c off left = v.readLoop false buffer left c off left →
      v.UnbrokenFrom buffer c off left) := by
  unfold UnbrokenFrom
  by_cases hzero : off = 0
  · subst hzero
    exact readLoop_iff left left le_rfl le_rfl hleft
  rw [if_neg hzero]
  cases left with
  | zero =>
    have hpos := clusterSize_pos (v := v)
    exact ⟨fun _ => rfl, fun _ _ _ _ _ => .of_short (by omega)⟩
  | succ left =>
    have hrest := @readLoop_iff v buffer (v.getNextCluster c) (left + 1 - (v.clusterSize - off))
      left left (by omega) (by omega) (by omega)
    simp only [readLoop, hzero, false_and, if_false, readCluster, readSectors_eq]
    cases hc : isLink c with
    | false => simp
    | true =>
      cases buffer with
      | false => simp
      | true =>
        by_cases hread : v.Readable c
        · have hfits : _ ≤ v.length := hread
          simpa [hread, hfits] using hrest
        · have hfits : ¬ _ ≤ v.length := hread
          simp [hread, hfits]

variable (v) in
/-- The condition for a request. -/
def RunsAdjoin (buffer : Bool) (node : FAT32Node) (size offset : Nat) : Prop :=
  node.isDirectory = false → v.UnbrokenFrom buffer (v.skip (offset / v.clusterSize) node.cluster)
    (offset % v.clusterSize) (min size (node.size - offset))

end Volume

/-- **`nodeRead` returns what a reader of one cluster at a time returns if the clusters of its runs
adjoin, and only then** in a partition whose sectors are counted by 32-bit numbers. -/
theorem run_reading_iff (v : Volume) (buffer : Bool) (node : FAT32Node) (size offset : Nat)
    (hwrap : offset + size < 2 ^ 64) :
    (v.RunsAdjoin buffer node size offset →
      v.nodeRead true buffer node size offset = v.nodeRead false buffer node size offset) ∧
    (v.length ≤ 2 ^ 32 * v.bytesPerSector →
      v.nodeRead true buffer node size offset = v.nodeRead false buffer node size offset →
      v.RunsAdjoin buffer node size offset) := by
  have hsmall := node.small
  have hiff := @Volume.readLoop_from_iff v buffer (v.skip (offset / v.clusterSize) node.cluster)
    (min size (node.size - offset)) _ (Nat.mod_lt offset Volume.clusterSize_pos) (by omega)
  unfold Volume.nodeRead Volume.RunsAdjoin
  cases node.isDirectory with
  | true => simp
  | false =>
    by_cases hend : node.size ≤ offset
    · have hnone : min size (node.size - offset) = 0 := by omega
      rw [hnone] at hiff ⊢
      simp only [hend, if_true]
      exact ⟨fun _ => trivial, fun hsectors _ _ => hiff.2 hsectors rfl⟩
    · have hsize : (if node.size < (offset + size) % 2 ^ 64 then node.size - offset else size) =
          min size (node.size - offset) := by
        rw [Nat.mod_eq_of_lt hwrap]
        split <;> omega
      simpa only [hend, hsize, Bool.false_eq_true, if_false, Option.some.injEq, true_imp_iff]
        using hiff

/-- A volume of sectors of 512 bytes, of which the file has the clusters 2 and 3.  The FAT entry of
cluster 4 is a bad mark. -/
def sampleVolume (sectors : Nat) : Volume where
  bytesPerSector := 512
  sectorsPerCluster := 1
  dataStart := 2
  length := sectors * 512
  byte _ := 7
  getNextCluster c := if c = 2 then 3 else if c = 4 then 0x0FFFFFF7 else FAT32_EOC
  geometry := by decide
  masked c := by split_ifs <;> decide

def sampleFile : FAT32Node := ⟨2, 1024, false, by decide⟩

theorem run_reading_iff_sample : (sampleVolume 4).nodeRead true true sampleFile 1024 0 =
    (sampleVolume 4).nodeRead false true sampleFile 1024 0 := by
  refine (run_reading_iff _ _ _ _ _ (by decide)).1 fun _ k hk _ _ => ?_
  obtain rfl : k = 0 := by
    have : (k + 2) * 512 ≤ 1024 := hk
    omega
  exact ⟨by decide, by decide, by decide⟩

/-- The cluster 3 is behind the end of the partition: nothing is read, not even the cluster 2. -/
theorem run_leaves_volume : ¬ ∀ (v : Volume) (buffer : Bool) (node : FAT32Node) (size offset : Nat),
    offset + size < 2 ^ 64 →
      v.nodeRead true buffer node size offset = v.nodeRead false buffer node size offset := by
  intro h
  exact absurd (h (sampleVolume 3) true sampleFile 1024 0 (by decide)) (by decide +kernel)

end InstantOS.Fat32

import Mathlib.Algebra.Ring.Nat

/-!
# Formatting a FAT32 volume

`formatFat32` of `fs/storage/storage.cpp`.  A larger FAT leaves fewer clusters, and these need a
smaller FAT, so the size is looked for in eight rounds.  For most devices they end in the one size
that fits itself.  For the others they go back and forth between two sizes, and the eighth round
is at the smaller one.
-/

namespace InstantOS.Storage

structure StorageInfo where
  totalSize : UInt64
  sectorSize : UInt32
  writable : Bool
  mounted : Bool

/-- The fields of the boot sector that say where the FATs and the clusters are. -/
structure FAT32BPB where
  sectorsPerCluster : UInt8
  reservedSectors : UInt16
  numFATs : UInt8
  totalSectors32 : UInt32
  fatSize32 : UInt32
deriving DecidableEq

def ceilDiv (value divisor : UInt64) : UInt32 :=
  ((value + divisor - 1) / divisor).toUInt32

def chooseSectorsPerCluster (totalSectors : UInt64) : UInt8 :=
  if totalSectors < 64 * 1024 then 1
  else if totalSectors < 512 * 1024 then 4
  else if totalSectors < 2 * 1024 * 1024 then 8
  else 16

/-- The size of a FAT after a number of rounds. -/
def fatSectors (totalSectors : UInt32) (sectorsPerCluster : UInt8) : Nat → UInt32
  | 0 => 1
  | n + 1 =>
    let dataSectors := totalSectors - 32 - 2 * fatSectors totalSectors sectorsPerCluster n
    let clusters := dataSectors / sectorsPerCluster.toUInt32
    ceilDiv ((clusters.toUInt64 + 2) * 4) 512

/-- `formatFat32` with the boot sector it writes; `written` says whether the device takes that
sector, its copy, the FS information, the FATs and the root directory. -/
def formatFat32 (info : StorageInfo) (written : Bool) : Option FAT32BPB :=
  if info.sectorSize ≠ 512 ∨ info.totalSize < 4 * 1024 * 1024 ∨ !info.writable ∨ info.mounted ∨
      !written then none
  else
    let totalSectors := (info.totalSize / 512).toUInt32
    let sectorsPerCluster := chooseSectorsPerCluster totalSectors.toUInt64
    some ⟨sectorsPerCluster, 32, 2, totalSectors, fatSectors totalSectors sectorsPerCluster 8⟩

/-- The clusters of the data area behind the reserved sectors and the FATs. -/
def FAT32BPB.clusters (bpb : FAT32BPB) : Nat :=
  (bpb.totalSectors32.toNat - bpb.reservedSectors.toNat -
    bpb.numFATs.toNat * bpb.fatSize32.toNat) / bpb.sectorsPerCluster.toNat

/-! ## The rounds -/

/-- The size of the FAT for the clusters that a FAT of `size` sectors leaves. -/
def needed (total c size : Nat) : Nat := (((total - 32 - 2 * size) / c + 2) * 4 + 511) / 512

/-- The largest size that is too small. -/
def short (total c : Nat) : Nat := (total - 32 + c) / (128 * c + 2)

/-- `size` is at most `far` from the size that fits itself. -/
def Near (total c far size : Nat) : Prop :=
  short total c + 1 ≤ size + far ∧ size ≤ short total c + 1 + far

section

variable {total c size far : Nat} (hlarge : 8192 ≤ total)
  (hc : c = 1 ∨ c = 4 ∨ c = 8 ∨ c = 16) (hsize : 32 + 2 * size ≤ total)

include hlarge hc hsize

theorem lt_needed_iff : size < needed total c size ↔ size ≤ short total c := by
  unfold needed short
  rcases hc with rfl | rfl | rfl | rfl <;> omega

theorem needed_fits : 32 + 2 * needed total c size ≤ total := by
  unfold needed
  rcases hc with rfl | rfl | rfl | rfl <;> omega

/-- With a rest of 0 or 1 every round changes the side. -/
theorem needed_crosses (hrest : (total - 32 + c) % (128 * c + 2) < 2) :
    short total c < needed total c size ↔ size ≤ short total c := by
  unfold needed short
  rcases hc with rfl | rfl | rfl | rfl <;> omega

variable (hrest : 2 ≤ (total - 32 + c) % (128 * c + 2))

include hrest

/-- With any other rest a round comes closer to the size that fits itself. -/
theorem Near.needed (h : Near total c far size) :
    Near total c ((far + 63) / 64) (needed total c size) := by
  unfold Near Storage.needed short at *
  rcases hc with rfl | rfl | rfl | rfl <;> omega

/-- Next to that size, two rounds are enough. -/
theorem Near.twice (h : Near total c 1 size) :
    short total c < Storage.needed total c (Storage.needed total c size) := by
  unfold Near Storage.needed short at *
  rcases hc with rfl | rfl | rfl | rfl <;> omega

end

/-- How far a round is at most from the size that fits itself. -/
def distance : Nat → Nat
  | 0 => 2 ^ 25
  | n + 1 => (distance n + 63) / 64

theorem chooseSectorsPerCluster_cases (n : UInt64) :
    let c := (chooseSectorsPerCluster n).toNat
    c = 1 ∨ c = 4 ∨ c = 8 ∨ c = 16 := by
  unfold chooseSectorsPerCluster
  split_ifs <;> simp

section

variable {total : UInt32} {c : UInt8} (hlarge : 8192 ≤ total.toNat)
  (hc : c.toNat = 1 ∨ c.toNat = 4 ∨ c.toNat = 8 ∨ c.toNat = 16) (n : Nat)

include hc

/-- A round does not wrap around. -/
theorem fatSectors_succ (hfits : 32 + 2 * (fatSectors total c n).toNat ≤ total.toNat) :
    (fatSectors total c (n + 1)).toNat =
      needed total.toNat c.toNat (fatSectors total c n).toNat := by
  have htotal := total.toNat_lt
  simp only [fatSectors, ceilDiv, needed, UInt64.toNat_toUInt32, UInt64.toNat_div,
    UInt64.toNat_sub, UInt64.toNat_add, UInt64.toNat_mul, UInt32.toNat_toUInt64,
    UInt32.toNat_div, UInt32.toNat_sub, UInt32.toNat_mul, UInt8.toNat_toUInt32]
  rcases hc with h | h | h | h <;> rw [h] <;> simp <;> omega

include hlarge

theorem fatSectors_fits : 32 + 2 * (fatSectors total c n).toNat ≤ total.toNat := by
  induction n with
  | zero => exact Nat.le_trans (show 32 + 2 * 1 ≤ 8192 by decide) hlarge
  | succ n ih =>
    rw [fatSectors_succ hc n ih]
    exact needed_fits hlarge hc ih

/-- When every round changes the side, the even ones stay below. -/
theorem fatSectors_even (hrest : (total.toNat - 32 + c.toNat) % (128 * c.toNat + 2) < 2) :
    (fatSectors total c (2 * n)).toNat ≤ short total.toNat c.toNat := by
  have hcross := fun k => needed_crosses hlarge hc (fatSectors_fits hlarge hc k) hrest
  have hsucc := fun k => fatSectors_succ hc k (fatSectors_fits hlarge hc k)
  induction n with
  | zero =>
    show 1 ≤ short total.toNat c.toNat
    unfold short
    rcases hc with h | h | h | h <;> rw [h] <;> omega
  | succ n ih =>
    have habove := (hcross _).mpr ih
    rw [← hsucc, ← Nat.not_le, ← hcross, ← hsucc] at habove
    exact Nat.not_lt.mp habove

/-- With any other rest the rounds come close to the size that fits itself. -/
theorem fatSectors_near (hrest : 2 ≤ (total.toNat - 32 + c.toNat) % (128 * c.toNat + 2)) :
    Near total.toNat c.toNat (distance n) (fatSectors total c n).toNat := by
  induction n with
  | zero =>
    have htotal := total.toNat_lt
    show Near _ _ (2 ^ 25) 1
    unfold Near short
    rcases hc with h | h | h | h <;> rw [h] <;> omega
  | succ n ih =>
    rw [fatSectors_succ hc n (fatSectors_fits hlarge hc n)]
    exact ih.needed hlarge hc (fatSectors_fits hlarge hc n) hrest

theorem short_lt_eighth_iff : short total.toNat c.toNat < (fatSectors total c 8).toNat ↔
    2 ≤ (total.toNat - 32 + c.toNat) % (128 * c.toNat + 2) := by
  have hfits := fatSectors_fits hlarge hc
  refine ⟨fun hlt => ?_, fun hrest => ?_⟩
  · by_contra hrest
    exact Nat.not_lt.mpr (fatSectors_even hlarge hc 4 (by omega)) hlt
  · rw [fatSectors_succ hc 7 (hfits 7), fatSectors_succ hc 6 (hfits 6)]
    exact (fatSectors_near hlarge hc 6 hrest).twice hlarge hc (hfits 6) hrest

end

/-- **The FAT covers the clusters** exactly when the sectors behind the reserved ones and one
cluster more leave a rest of 2 or more on division by the sectors that go with one of a FAT. -/
theorem fat_covers_iff (info : StorageInfo) (written : Bool) (bpb : FAT32BPB)
    (hsectors : info.totalSize.toNat / 512 < 2 ^ 32) (h : formatFat32 info written = some bpb) :
    (bpb.clusters + 2) * 4 ≤ bpb.fatSize32.toNat * 512 ↔
      2 ≤ (info.totalSize.toNat / 512 - 32 + bpb.sectorsPerCluster.toNat) %
        (128 * bpb.sectorsPerCluster.toNat + 2) := by
  obtain ⟨hguard, hbpb⟩ := Option.ite_none_left_eq_some.mp h
  cases hbpb
  simp only [not_or, UInt64.not_lt] at hguard
  have hsize : 4194304 ≤ info.totalSize.toNat := hguard.2.1
  have htotal : (info.totalSize / 512).toUInt32.toNat = info.totalSize.toNat / 512 := by
    simpa using hsectors
  have hc := chooseSectorsPerCluster_cases (info.totalSize / 512).toUInt32.toUInt64
  have hlarge : 8192 ≤ (info.totalSize / 512).toUInt32.toNat := by omega
  have hcovers := lt_needed_iff hlarge hc (fatSectors_fits hlarge hc 8)
  rw [← htotal, ← short_lt_eighth_iff hlarge hc]
  simp only [FAT32BPB.clusters, needed, UInt16.reduceToNat, UInt8.reduceToNat] at hcovers ⊢
  omega

theorem fat_covers_four_mebibytes :
    ((⟨1, 32, 2, 8192, 63⟩ : FAT32BPB).clusters + 2) * 4 ≤ 63 * 512 :=
  (fat_covers_iff ⟨4194304, 512, true, false⟩ true _ (by decide) (by decide +kernel)).mpr
    (by decide)

/-- A device of 8221 sectors gets a FAT of 63 sectors, one entry short of its 8063 clusters. -/
theorem fat_too_small : formatFat32 ⟨4209152, 512, true, false⟩ true = some ⟨1, 32, 2, 8221, 63⟩ ∧
    ¬ ((⟨1, 32, 2, 8221, 63⟩ : FAT32BPB).clusters + 2) * 4 ≤ 63 * 512 := by
  decide +kernel

end InstantOS.Storage

import Mathlib.Algebra.Ring.Nat

/-!
# Partitions

The finders of `fs/partition/partition.cpp` and the device that confines a file system to what they
found.  Start and length of a GPT partition are products modulo `2 ^ 64`, so a large address in the
table puts the device over other bytes of the disk.
-/

namespace InstantOS.Partition

/-- `read` of a disk: the bytes from an address on, or nothing. -/
abbrev BlockDevice := UInt64 → UInt64 → Option (Nat → UInt8)

structure PartitionBlockDevice where
  startByte : UInt64
  lengthByte : UInt64
deriving DecidableEq

/-- The address and the size that `read` and `write` pass on to the disk. -/
def PartitionBlockDevice.request (d : PartitionBlockDevice) (offset size : UInt64) :
    Option (UInt64 × UInt64) :=
  if offset > d.lengthByte ∨ size > d.lengthByte - offset then none
  else some (d.startByte + offset, size)

/-! ## MBR -/

def rd32le (p : Nat → UInt8) (off : Nat) : UInt32 :=
  (p off).toUInt32 ||| (p (off + 1)).toUInt32 <<< 8 ||| (p (off + 2)).toUInt32 <<< 16 |||
    (p (off + 3)).toUInt32 <<< 24

def mbrIsFatType (type : UInt8) : Bool := type ∈ [0x01, 0x04, 0x06, 0x0B, 0x0C, 0x0E]

def mbrIsLinuxType (type : UInt8) : Bool := type = 0x83

/-- `lbaStart` and `sectorCount` of the first used entry with a type that is looked for. -/
def mbrEntry (wanted : UInt8 → Bool) (device : BlockDevice) : Option (UInt32 × UInt32) := do
  let sector ← device 0 512
  let entry i off := 0x1BE + i * 16 + off
  if sector 510 = 0x55 ∧ sector 511 = 0xAA then
    let i ← (List.range 4).find? fun i =>
      sector (entry i 4) ≠ 0 && rd32le sector (entry i 12) ≠ 0 &&
      wanted (sector (entry i 4))
    some (rd32le sector (entry i 8), rd32le sector (entry i 12))
  else none

/-- The device over a partition that is reported. -/
def mbrPartition (e : UInt32 × UInt32) : PartitionBlockDevice :=
  ⟨e.1.toUInt64 * 512, e.2.toUInt64 * 512⟩

def mbrFindFatPartition := mbrEntry mbrIsFatType

def mbrFindPartition := mbrEntry fun type => mbrIsFatType type || mbrIsLinuxType type

/-! ## GPT -/

def rd16le (p : Nat → UInt8) (off : Nat) : UInt16 :=
  (p off).toUInt16 ||| (p (off + 1)).toUInt16 <<< 8

def rd64le (p : Nat → UInt8) (off : Nat) : UInt64 :=
  (List.range 8).foldl (fun v i => v ||| (p (off + i)).toUInt64 <<< UInt64.ofNat (8 * i)) 0

/-- The comparisons of signatures, labels and GUIDs. -/
def bytesAt (p : Nat → UInt8) (off : Nat) (bytes : List UInt8) : Bool :=
  (List.range bytes.length).map (fun i => p (off + i)) = bytes

/-- `EFI PART`. -/
def gptSignature : List UInt8 := [0x45, 0x46, 0x49, 0x20, 0x50, 0x41, 0x52, 0x54]

def kFat32 : List UInt8 := [0x46, 0x41, 0x54, 0x33, 0x32, 0x20, 0x20, 0x20]

def kInstantOSLabel : List UInt8 :=
  [0x49, 0x4E, 0x53, 0x54, 0x41, 0x4E, 0x54, 0x4F, 0x53, 0x20, 0x20]

def kGptBasicDataGuid : List UInt8 :=
  [0xA2, 0xA0, 0xD0, 0xEB, 0xE5, 0xB9, 0x33, 0x44, 0x87, 0xC0, 0x68, 0xB6, 0xB7, 0x26, 0x99, 0xC7]

def kGptInstantOSDataGuid : List UInt8 :=
  [0x50, 0xFA, 0x66, 0x95, 0x65, 0x76, 0x44, 0x4F, 0x96, 0x2E, 0x11, 0x3F, 0xD9, 0x9C, 0xDC, 0x87]

/-- The loop over the `n` sectors of the root directory from an address on, entry by entry. -/
def labelInRoot (device : BlockDevice) : Nat → UInt64 → Bool
  | 0, _ => false
  | n + 1, rootStart =>
    match device rootStart 512 with
    | none => false
    | some sector =>
      match (List.range 16).find? fun e => sector (32 * e) = 0 ||
        sector (32 * e) ≠ 0xE5 && sector (32 * e + 11) ≠ 0x0F &&
          sector (32 * e + 11) &&& 0x08 ≠ 0 with
      | some e => sector (32 * e) ≠ 0 && bytesAt sector (32 * e) kInstantOSLabel
      | none => labelInRoot device n (rootStart + 512)

def fat32LabelIsInstantOS (device : BlockDevice) (startByte : UInt64) : Bool :=
  match device startByte 512 with
  | none => false
  | some boot =>
    let rootCluster := rd32le boot 0x2C
    let dataStart := (rd16le boot 0x0E).toUInt64 +
      (boot 0x10).toUInt64 * (rd32le boot 0x24).toUInt64
    boot 510 = 0x55 && boot 511 = 0xAA && bytesAt boot 0x52 kFat32 &&
      (bytesAt boot 0x47 kInstantOSLabel ||
        rd16le boot 0x0B = 512 && boot 0x0D ≠ 0 && 2 ≤ rootCluster && boot 0x10 ≠ 0 &&
          labelInRoot device (boot 0x0D).toNat (startByte +
            (dataStart + (rootCluster - 2).toUInt64 * (boot 0x0D).toUInt64) * 512))

def firstLba (entry : Nat → UInt8) : UInt64 := rd64le entry 0x20
def lastLba (entry : Nat → UInt8) : UInt64 := rd64le entry 0x28

/-- An entry at which the loop of `gptFindInstantOSPartition` returns. -/
def gptAccepts (device : BlockDevice) (entry : Nat → UInt8) : Bool :=
  let ours := bytesAt entry 0 kGptInstantOSDataGuid
  (ours || bytesAt entry 0 kGptBasicDataGuid) && firstLba entry ≤ lastLba entry &&
    (ours || fat32LabelIsInstantOS device (firstLba entry * 512))

/-- The loop over `n` entries from the `i`-th on, which ends at one that cannot be read. -/
def gptScan (device : BlockDevice) (entryLba : UInt64) (entrySize : UInt32) :
    Nat → Nat → Option (Nat → UInt8)
  | 0, _ => none
  | n + 1, i => do
    let entry ← device (entryLba * 512 + UInt64.ofNat i * entrySize.toUInt64) entrySize.toUInt64
    if gptAccepts device entry then some entry else gptScan device entryLba entrySize n (i + 1)

/-- The entry for which `Found` is returned. -/
def gptFindInstantOSPartition (device : BlockDevice) : Option (Nat → UInt8) := do
  let hdr ← device 512 512
  let entryLba := rd64le hdr 0x48
  let entrySize := rd32le hdr 0x54
  if bytesAt hdr 0 gptSignature ∧ ¬ (entrySize < 128 ∨ entrySize > 512 ∨ entryLba = 0) then
    gptScan device entryLba entrySize (min (rd32le hdr 0x50).toNat 256) 0
  else none

/-- The device over the partition of an entry. -/
def gptPartition (entry : Nat → UInt8) : PartitionBlockDevice :=
  ⟨firstLba entry * 512, (lastLba entry - firstLba entry + 1) * 512⟩

/-! ## Confinement -/

/-- Every byte of a request that is passed on lies in the sectors from `first` to before `stop`. -/
def PartitionBlockDevice.Confined (d : PartitionBlockDevice) (first stop : Nat) : Prop :=
  ∀ offset size address n, d.request offset size = some (address, n) →
    ∀ b, address.toNat ≤ b → b < address.toNat + n.toNat → 512 * first ≤ b ∧ b < 512 * stop

theorem request_eq_some {d : PartitionBlockDevice} {offset size address n : UInt64} :
    d.request offset size = some (address, n) ↔
      offset.toNat + size.toNat ≤ d.lengthByte.toNat ∧ d.startByte + offset = address ∧
        size = n := by
  have hlt := d.lengthByte.toNat_lt
  simp only [PartitionBlockDevice.request, Option.ite_none_left_eq_some, Option.some.injEq,
    Prod.mk.injEq, gt_iff_lt, UInt64.lt_iff_toNat_lt, UInt64.toNat_sub]
  refine and_congr_left fun _ => ?_
  omega

/-- **What the device keeps of `count` sectors from `first` on**: the length loses its high bits,
and the rest has to end within the `2 ^ 64` bytes that can be addressed. -/
theorem confined_iff {d : PartitionBlockDevice} {first count : Nat}
    (hstart : d.startByte.toNat = 512 * first % 2 ^ 64)
    (hlength : d.lengthByte.toNat = 512 * count % 2 ^ 64) :
    d.Confined first (first + count) ↔ count % 2 ^ 55 = 0 ∨ first + count % 2 ^ 55 ≤ 2 ^ 55 := by
  constructor
  · intro h
    by_contra hout
    -- a byte at the start if that has wrapped, and the byte at which it wraps otherwise
    have hbyte : ∀ offset < d.lengthByte.toNat,
        512 * first ≤ (d.startByte.toNat + offset) % 2 ^ 64 := by
      intro offset hlt
      have hoffset : (UInt64.ofNat offset).toNat = offset :=
        UInt64.toNat_ofNat_of_lt' (Nat.lt_trans hlt d.lengthByte.toNat_lt)
      have hin := (h (.ofNat offset) 1 _ 1 (request_eq_some.mpr
        ⟨by rw [hoffset]; exact hlt, rfl, rfl⟩)
        _ (Nat.le_refl _) (Nat.lt_succ_self _)).1
      rwa [UInt64.toNat_add, hoffset] at hin
    have hzero := hbyte 0
    have hwrap := hbyte (2 ^ 64 - 512 * first)
    omega
  · intro hfits offset size address n hrequest b hle hlt
    obtain ⟨hin, rfl, rfl⟩ := request_eq_some.mp hrequest
    rw [UInt64.toNat_add] at hle hlt
    omega

theorem gptScan_le {device : BlockDevice} {entryLba : UInt64} {entrySize : UInt32} {n i : Nat}
    {entry : Nat → UInt8} (h : gptScan device entryLba entrySize n i = some entry) :
    firstLba entry ≤ lastLba entry := by
  induction n generalizing i with
  | zero => cases h
  | succ n ih =>
    obtain ⟨read, -, h⟩ := Option.bind_eq_some_iff.mp h
    split at h
    · cases h
      simp_all [gptAccepts]
    · exact ih h

/-- The sectors of a partition as its device counts them. -/
def sectors (entry : Nat → UInt8) : Nat :=
  ((lastLba entry).toNat + 1 - (firstLba entry).toNat) % 2 ^ 55

/-- **A partition confines its device just when the sectors that are counted end in the first
`2 ^ 55` of a disk**; those of an MBR always do. -/
theorem partition_confined_iff (device : BlockDevice) :
    (∀ entry, gptFindInstantOSPartition device = some entry →
      ((gptPartition entry).Confined (firstLba entry).toNat ((lastLba entry).toNat + 1) ↔
        sectors entry = 0 ∨ (firstLba entry).toNat + sectors entry ≤ 2 ^ 55)) ∧
    ∀ e, mbrFindFatPartition device = some e ∨ mbrFindPartition device = some e →
      (mbrPartition e).Confined e.1.toNat (e.1.toNat + e.2.toNat) := by
  constructor
  · intro entry h
    obtain ⟨hdr, -, h⟩ := Option.bind_eq_some_iff.mp h
    have hle : (firstLba entry).toNat ≤ (lastLba entry).toNat :=
      gptScan_le (Option.ite_none_right_eq_some.mp h).2
    have hlt := (lastLba entry).toNat_lt
    rw [show (lastLba entry).toNat + 1 = _ from (Nat.add_sub_of_le (Nat.le_succ_of_le hle)).symm]
    apply confined_iff
    · simp [gptPartition, UInt64.toNat_mul, Nat.mul_comm]
    · simp only [gptPartition, UInt64.toNat_mul, UInt64.toNat_add, UInt64.toNat_sub,
        UInt64.reduceToNat]
      omega
  · intro e _
    have hfirst := e.1.toNat_lt
    have hcount := e.2.toNat_lt
    refine (confined_iff ?_ ?_).mpr (.inr (by omega)) <;>
      simp [mbrPartition, UInt64.toNat_mul, Nat.mul_comm]

/-- A disk with one entry, whose partition is a sector with `value` as byte `k` of its address. -/
def sampleDisk (k : Nat) (value : UInt8) : BlockDevice := fun address _ => some fun i =>
  if address = 512 then
    if i < 8 then gptSignature.getD i 0
    else if i = 0x48 then 2 else if i = 0x50 then 1 else if i = 0x54 then 128 else 0
  else if i < 16 then kGptInstantOSDataGuid.getD i 0
  else if i = 0x20 + k ∨ i = 0x28 + k then value else 0

theorem partition_confined_sector_eight :
    ∃ entry, gptFindInstantOSPartition (sampleDisk 0 8) = some entry ∧ firstLba entry = 8 ∧
      (gptPartition entry).Confined (firstLba entry).toNat ((lastLba entry).toNat + 1) := by
  have hfound : (gptFindInstantOSPartition (sampleDisk 0 8)).map
    (fun e => (firstLba e, sectors e)) =
      some (8, 1) := by decide +kernel
  obtain ⟨entry, hentry, hlba⟩ := Option.map_eq_some_iff.mp hfound
  obtain ⟨hfirst, hcount⟩ := Prod.mk.inj hlba
  refine ⟨entry, hentry, hfirst, ((partition_confined_iff _).1 entry hentry).mpr (.inr ?_)⟩
  rw [hfirst, hcount]
  decide

/-- The sector `2 ^ 55` comes out as the first one of the disk. -/
theorem partition_not_confined :
    ∃ entry, gptFindInstantOSPartition (sampleDisk 6 0x80) = some entry ∧
      ¬ (gptPartition entry).Confined (firstLba entry).toNat ((lastLba entry).toNat + 1) := by
  have hfound : (gptFindInstantOSPartition (sampleDisk 6 0x80)).map
      (fun e => ((firstLba e).toNat, (gptPartition e).request 0 1)) =
        some (2 ^ 55, some (0, 1)) := by
    decide +kernel
  obtain ⟨entry, hentry, hlba⟩ := Option.map_eq_some_iff.mp hfound
  obtain ⟨hfirst, hrequest⟩ := Prod.mk.inj hlba
  refine ⟨entry, hentry, fun h => ?_⟩
  have hin := (h _ _ _ _ hrequest 0 (Nat.le_refl _) Nat.zero_lt_one).1
  omega

end InstantOS.Partition
